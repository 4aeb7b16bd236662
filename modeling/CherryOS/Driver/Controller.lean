import CherryOS.Driver.BlkReq
import CherryOS.Lib.Bytes

/-!
# The disk controller

What the driver relies on.  A command is started by the write to the command port, from
what the other ports were given.  A read or write of `n` sectors moves `n` consecutive
sectors from the given cylinder, head and sector, in order, with one interrupt for each:
after a sector was read, or after the data of one was taken and written.  An error aborts
the command.  Any other command moves no data and interrupts once.

The status that the driver reads in an interrupt is all that it learns of an error.
-/

namespace CherryOS
namespace Driver

open Kernel (U32)

def MAX_HD : Nat := 2

instance : NeZero MAX_HD := ⟨by decide⟩

abbrev Drive := Fin MAX_HD
abbrev Memory := U32 → BitVec 8
abbrev Sector := Fin 512 → BitVec 8
abbrev Disks := Drive → Nat → Sector

/-- A field of `hd_hw_info` that nothing reads is left out. -/
structure HdHwInfo where
  head : U32
  sect : U32
  cyl : U32
  wpcom : U32
  ctl : U32
deriving DecidableEq, Repr

/-! ## Ports -/

inductive Port
  | HD_CMD
  | HD_PRECOMP
  | HD_NSECTOR
  | HD_SECTOR
  | HD_LCYL
  | HD_HCYL
  | HD_CURRENT
  | HD_COMMAND
deriving DecidableEq, Repr

def ERR_STAT : BitVec 8 := 0x01
def DRQ_STAT : BitVec 8 := 0x08
def SEEK_STAT : BitVec 8 := 0x10
def WR_ERR_STAT : BitVec 8 := 0x20
def READY_STAT : BitVec 8 := 0x40
def BUSY_STAT : BitVec 8 := 0x80

def CMD_RESTORE : U32 := 0x10
def CMD_READ : U32 := 0x20
def CMD_WRITE : U32 := 0x30
def CMD_INIT_DRIVE_PARAMETER : U32 := 0x91

/-- `cmd_result`: the command failed. -/
def cmdResult (status : BitVec 8) : Bool :=
  status &&& (BUSY_STAT ||| READY_STAT ||| WR_ERR_STAT ||| SEEK_STAT ||| ERR_STAT) ≠
    READY_STAT ||| SEEK_STAT

/-- What the controller is doing.  `start` is the next sector of the drive, and `left`
sectors are still to be moved.  A write that has no data yet asks for it. -/
inductive Job
  | idle
  | noData
  | read (drive : Drive) (start left : Nat)
  | write (drive : Drive) (start left : Nat) (data : Option Sector)

structure Controller where
  ports : Port → BitVec 8
  /-- What the data port gives. -/
  data : Sector
  job : Job

namespace Controller

variable (hw : Drive → HdHwInfo)

/-- The drive and the sector that the ports name. -/
def drive (c : Controller) : Drive :=
  if (c.ports .HD_CURRENT).getLsbD 4 then 1 else 0

def cylinder (c : Controller) : Nat :=
  256 * (c.ports .HD_HCYL).toNat + (c.ports .HD_LCYL).toNat

def head (c : Controller) : Nat := (c.ports .HD_CURRENT &&& 0x0F).toNat

def sector (c : Controller) : Nat :=
  (c.cylinder * (hw c.drive).head.toNat + c.head) * (hw c.drive).sect.toNat +
    (c.ports .HD_SECTOR).toNat - 1

/-- What a write to the command port starts. -/
def start (c : Controller) : Job :=
  let n := (c.ports .HD_NSECTOR).toNat
  if (c.ports .HD_COMMAND).zeroExtend 32 = CMD_READ then .read c.drive (c.sector hw) n
  else if (c.ports .HD_COMMAND).zeroExtend 32 = CMD_WRITE then
    .write c.drive (c.sector hw) n none
  else .noData

def set (c : Controller) (port : Port) (value : BitVec 8) : Controller :=
  { c with ports := Function.update c.ports port value }

/-- `out_b`.  Bit 2 of `HD_CMD` resets the controller. -/
def outB (c : Controller) (value : U32) (port : Port) : Controller :=
  let c := c.set port (value.setWidth 8)
  match port with
  | .HD_COMMAND => { c with job := c.start hw }
  | .HD_CMD => if value.getLsbD 2 then { c with job := .idle } else c
  | _ => c

/-- `port_write(HD_DATA, ..)` of a sector. -/
def give (c : Controller) (x : Sector) : Controller :=
  match c.job with
  | .write drive start left none => { c with job := .write drive start left (some x) }
  | _ => c

/-- The controller does the next part of its job, ends with `status` and interrupts.  `junk`
is what a write that fails leaves on the disk. -/
def interrupt (c : Controller) (disks : Disks) (status : BitVec 8) (junk : Sector) :
    Option (Controller × Disks) :=
  match c.job with
  | .idle => none
  | .noData => some ({ c with job := .idle }, disks)
  | .read _ _ 0 => none
  | .read drive start (left + 1) =>
    if cmdResult status then some ({ c with job := .idle }, disks)
    else
      some ({ c with data := disks drive start, job := .read drive (start + 1) left }, disks)
  | .write _ _ 0 _ => none
  | .write _ _ _ none => none
  | .write drive start (left + 1) (some x) =>
    let put (y : Sector) : Disks :=
      Function.update disks drive (Function.update (disks drive) start y)
    if cmdResult status then some ({ c with job := .idle }, put junk)
    else some ({ c with job := .write drive (start + 1) left none }, put x)

end Controller

end Driver
end CherryOS
