import CherryOS.Driver.Failure

/-!
# Sector addresses

What `do_hd_request` makes of the number of a sector is put on four ports, and each port
takes a byte.  For a sector of the drive the four bytes are an address the drive has, it
is the address of that sector, and no other sector has it.
-/

namespace CherryOS
namespace Driver

open Kernel (U32)

/-- The digits `a` are those of a sector of a drive. -/
structure Chs.OnDrive (hw : HdHwInfo) (a : Chs) : Prop where
  sec_pos : 1 ≤ a.sec.toNat
  sec_le : a.sec.toNat ≤ hw.sect.toNat
  head_lt : a.head.toNat < hw.head.toNat
  cyl_lt : a.cyl.toNat < hw.cyl.toNat

/-- The address ports hold `a` and the drive, and the number they decode to. -/
structure Controller.Addresses (D : Drives) (c : Controller) (drive : Drive) (a : Chs)
    (absBlock : U32) : Prop where
  drive_eq : c.drive = drive
  sec_eq : (c.ports .HD_SECTOR).toNat = a.sec.toNat
  head_eq : c.head = a.head.toNat
  cyl_eq : c.cylinder = a.cyl.toNat
  decodes : (c.cylinder * (D.hdHw drive).head.toNat + c.head) * (D.hdHw drive).sect.toNat +
    (c.ports .HD_SECTOR).toNat - 1 = absBlock.toNat

/-- The ports that tell a drive which sector is meant. -/
def Port.IsAddress (port : Port) : Prop :=
  port = .HD_SECTOR ∨ port = .HD_LCYL ∨ port = .HD_HCYL ∨ port = .HD_CURRENT

variable {n : Nat} {D : Drives} {c c' : Controller} {drive drive' : Drive}
  {absBlock absBlock' : U32}

theorem chs_onDrive {hw : HdHwInfo} (hg : hw.Geometry) (habs : absBlock.toNat < hw.size) :
    (chs hw absBlock).OnDrive hw := by
  obtain ⟨hhead, hcyl⟩ := chs_digits hw absBlock
  have hsect := Nat.mod_lt absBlock.toNat hg.sect_pos
  refine ⟨?_, ?_, ?_, ?_⟩
  · rw [chs_sector hg]
    omega
  · rw [chs_sector hg]
    omega
  · rw [hhead]
    exact Nat.mod_lt _ hg.head_pos
  · rw [hcyl, Nat.div_div_eq_div_mul]
    apply Nat.div_lt_of_lt_mul
    rw [Nat.mul_comm hw.sect.toNat]
    exact habs

/-- The four bytes of a command. -/
theorem command_addresses (nsect cmd : U32) (hg : (D.hdHw drive).Geometry)
    (habs : absBlock.toNat < (D.hdHw drive).size) :
    (D.command c drive nsect (chs (D.hdHw drive) absBlock).sec (chs (D.hdHw drive) absBlock).head
      (chs (D.hdHw drive) absBlock).cyl cmd).Addresses D drive (chs (D.hdHw drive) absBlock)
        absBlock := by
  obtain ⟨hsect, hhead, hcyl⟩ := chs_bounds hg habs
  have hsec : ((D.command c drive nsect (chs (D.hdHw drive) absBlock).sec
      (chs (D.hdHw drive) absBlock).head (chs (D.hdHw drive) absBlock).cyl cmd).ports
        .HD_SECTOR).toNat = (chs (D.hdHw drive) absBlock).sec.toNat := by
    rw [command_ports, Drives.written, BitVec.toNat_setWidth, Nat.mod_eq_of_lt (by omega)]
  refine ⟨command_drive hhead, hsec, command_head hhead, command_cylinder hcyl, ?_⟩
  rw [hsec, command_head hhead, command_cylinder hcyl]
  exact chs_join hg

theorem Controller.Addresses.congr {a : Chs} (h : c.Addresses D drive a absBlock)
    (hports : c'.ports = c.ports) : c'.Addresses D drive a absBlock := by
  have hdrive : c'.drive = c.drive := by rw [Controller.drive, hports, Controller.drive]
  have hhead : c'.head = c.head := by rw [Controller.head, hports, Controller.head]
  have hcyl : c'.cylinder = c.cylinder := by
    rw [Controller.cylinder, hports, Controller.cylinder]
  refine ⟨hdrive.trans h.drive_eq, ?_, hhead.trans h.head_eq, hcyl.trans h.cyl_eq, ?_⟩
  · rw [hports]
    exact h.sec_eq
  · rw [hports, hhead, hcyl]
    exact h.decodes

/-- Equal bytes mean the same sector of the same drive. -/
theorem Controller.Addresses.unique {a a' : Chs} (h : c.Addresses D drive a absBlock)
    (h' : c'.Addresses D drive' a' absBlock')
    (hports : ∀ port : Port, port.IsAddress → c.ports port = c'.ports port) :
    drive = drive' ∧ absBlock = absBlock' := by
  have hsector := hports .HD_SECTOR (Or.inl rfl)
  have hlow := hports .HD_LCYL (Or.inr (Or.inl rfl))
  have hhigh := hports .HD_HCYL (Or.inr (Or.inr (Or.inl rfl)))
  have hcurrent := hports .HD_CURRENT (Or.inr (Or.inr (Or.inr rfl)))
  have hdrive : drive = drive' := by
    rw [← h.drive_eq, ← h'.drive_eq, Controller.drive, hcurrent, Controller.drive]
  have hhead : c.head = c'.head := by rw [Controller.head, hcurrent, Controller.head]
  have hcyl : c.cylinder = c'.cylinder := by
    rw [Controller.cylinder, hlow, hhigh, Controller.cylinder]
  refine ⟨hdrive, BitVec.eq_of_toNat_eq ?_⟩
  rw [← h.decodes, ← h'.decodes, hsector, hhead, hcyl, hdrive]

@[simp] theorem give_ports (c : Controller) (x : Sector) : (c.give x).ports = c.ports := by
  rw [Controller.give]
  split <;> rfl

namespace Hd

variable {s s' : Hd n} {req : Slot}

theorem hdOut_addresses {ready : List (BitVec 8)} {nsect cmd : U32} {f : Handler}
    (hg : (D.hdHw drive).Geometry) (habs : absBlock.toNat < (D.hdHw drive).size)
    (h : s.hdOut D ready drive nsect (chs (D.hdHw drive) absBlock).sec
      (chs (D.hdHw drive) absBlock).head (chs (D.hdHw drive) absBlock).cyl cmd f = some s') :
    s'.ctl.Addresses D drive (chs (D.hdHw drive) absBlock) absBlock := by
  rw [hdOut_eq h]
  exact command_addresses nsect cmd hg habs

/-- A turn that neither resets nor recalibrates addresses the sector. -/
theorem issue_addresses {ready polls : List (BitVec 8)} (hg : (D.hdHw drive).Geometry)
    (habs : absBlock.toNat < (D.hdHw drive).size) (hreset : s.reset = false)
    (hrecal : s.recalibrate = false)
    (h : s.issue D ready polls req drive absBlock = some s') :
    s'.ctl.Addresses D drive (chs (D.hdHw drive) absBlock) absBlock := by
  rw [issue] at h
  split at h
  · cases h
  simp only [hreset, hrecal, Bool.false_eq_true, if_false] at h
  split at h
  · obtain ⟨t, ht, h⟩ := Option.bind_eq_some_iff.mp h
    have haddr := hdOut_addresses hg habs ht
    split at h
    · cases h
      exact haddr.congr (give_ports ..)
    · rw [badRwIntr_ctl h]
      exact haddr
  split at h
  · exact hdOut_addresses hg habs h
  · cases h

/-- On a drive that has as many heads as it can the driver never panics over a sector. -/
theorem issue_isSome {ready : List (BitVec 8)} (polls : List (BitVec 8))
    (hg : (D.hdHw drive).Checked) (hready : controllerReady ready = true)
    (hreq : s.currReq = some req)
    (hcmd : (s.dev.request req).cmd = BLK_READ ∨ (s.dev.request req).cmd = BLK_WRITE)
    (absBlock : U32) : (s.issue D ready polls req drive absBlock).isSome := by
  rw [issue, if_neg (not_zero_of_checked hg)]
  dsimp only
  split
  · rw [resetHd, hdOut_ready hready (last_head_le hg)]
    rfl
  split
  · rw [hdOut_ready hready (by decide)]
    rfl
  rw [hdOut_ready hready (chs_head_le hg absBlock), hdOut_ready hready (chs_head_le hg absBlock)]
  split
  · simp only [Option.bind_eq_bind, Option.bind_some]
    split
    · rfl
    · rw [Option.isSome_iff_exists]
      apply badRwIntr_isSome
      exact hreq
  · rename_i hwrite
    rw [if_pos (hcmd.resolve_right hwrite)]
    rfl

end Hd

/-- The driver gives a drive the address of the sector, and `hd_out` lets it. -/
def SectorAddressed (D : Drives) (drive : Drive) (absBlock : U32) : Prop :=
  ∀ (n : Nat) (s : Hd n) (ready polls : List (BitVec 8)) (req : Slot),
    s.currReq = some req →
    (s.dev.request req).cmd = BLK_READ ∨ (s.dev.request req).cmd = BLK_WRITE →
    s.reset = false → s.recalibrate = false → controllerReady ready = true →
    ∃ s', s.issue D ready polls req drive absBlock = some s' ∧
      s'.ctl.Addresses D drive (chs (D.hdHw drive) absBlock) absBlock

theorem sectorAddressed (hg : (D.hdHw drive).Geometry)
    (habs : absBlock.toNat < (D.hdHw drive).size) : SectorAddressed D drive absBlock := by
  intro n s ready polls req hreq hcmd hreset hrecal hready
  obtain ⟨s', hs'⟩ := Option.isSome_iff_exists.mp
    (Hd.issue_isSome polls hg.checked hready hreq hcmd absBlock)
  exact ⟨s', hs', Hd.issue_addresses hg habs hreset hrecal hs'⟩

/-- `c` is the controller after a command for the sector was given. -/
def LeftBy (D : Drives) (drive : Drive) (absBlock : U32) (c : Controller) : Prop :=
  ∃ (n : Nat) (s s' : Hd n) (ready polls : List (BitVec 8)) (req : Slot),
    s.reset = false ∧ s.recalibrate = false ∧
      s.issue D ready polls req drive absBlock = some s' ∧ s'.ctl = c

theorem LeftBy.addresses (hg : (D.hdHw drive).Geometry)
    (habs : absBlock.toNat < (D.hdHw drive).size) (h : LeftBy D drive absBlock c) :
    c.Addresses D drive (chs (D.hdHw drive) absBlock) absBlock := by
  obtain ⟨n, s, s', ready, polls, req, hreset, hrecal, hs', rfl⟩ := h
  exact Hd.issue_addresses hg habs hreset hrecal hs'

/-- The address of every sector of a drive is on the drive, is given to it, and is that of no
other sector. -/
theorem chs_exact (D : Drives) (drive : Drive) (absBlock : U32)
    (hg : (D.hdHw drive).Geometry) (habs : absBlock.toNat < (D.hdHw drive).size) :
    (chs (D.hdHw drive) absBlock).OnDrive (D.hdHw drive) ∧
      ¬ 15 < (chs (D.hdHw drive) absBlock).head ∧
      SectorAddressed D drive absBlock ∧
      ∀ (c c' : Controller) (drive' : Drive) (absBlock' : U32),
        (D.hdHw drive').Geometry → absBlock'.toNat < (D.hdHw drive').size →
        LeftBy D drive absBlock c → LeftBy D drive' absBlock' c' →
        (∀ port : Port, port.IsAddress → c.ports port = c'.ports port) →
        drive = drive' ∧ absBlock = absBlock' := by
  refine ⟨chs_onDrive hg habs, Hd.chs_head_le hg.checked absBlock, sectorAddressed hg habs, ?_⟩
  intro c c' drive' absBlock' hg' habs' hleft hleft' hports
  exact (hleft.addresses hg habs).unique (hleft'.addresses hg' habs') hports

/-- The last sector of a drive of 6800. -/
theorem chs_exact_last_sector :
    (chs (SecondSectorFails.drives.hdHw 0) 6799) = { sec := 17, head := 3, cyl := 99 } ∧
      SectorAddressed SecondSectorFails.drives 0 6799 :=
  ⟨by decide, (chs_exact SecondSectorFails.drives 0 6799
    ⟨by decide, by decide, by decide, by decide, by decide⟩ (by decide)).2.2.1⟩

end Driver
end CherryOS
