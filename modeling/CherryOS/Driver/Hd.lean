import CherryOS.Driver.Controller
import CherryOS.Lib.Run

/-!
# The hard disk driver

`do_hd_request` issues a command for the request at the head of the queue, and the
interrupt handlers move the data, retire the request or try it again.  The handlers run
with interrupts off, and `do_hd_request` waits for nothing after the command it issues, so
an interrupt finds the driver at rest.

A step is one turn of the `repeat` loop of `do_hd_request`, or an interrupt up to the call
of `do_hd_request` at its end.  The kernel stops at a panic, a division by zero or a store
through a null pointer: no step is possible then.  What is only printed is left out.
-/

namespace CherryOS
namespace Driver

open Kernel (U32)
open Fs (BufferHead Cache)
open Lib

def MAX_ERRORS : U32 := 7

structure HdStruct where
  startSect : U32
  nrSects : U32
deriving DecidableEq, Repr

/-- `number_of_hd`, `hd_hw` and `hd`. -/
structure Drives where
  numberOfHd : Nat
  hdHw : Drive → HdHwInfo
  hd : Fin (MAX_HD * 5) → HdStruct
  numberOfHd_le : numberOfHd ≤ MAX_HD

/-- What `do_hd` points to. -/
inductive Handler
  | readIntr
  | writeIntr
  | recalIntr
deriving DecidableEq, Repr

/-- The driver, the controller, the disks and the memory.  `retired` is the history of
`end_request`. -/
structure Hd (n : Nat) where
  dev : BlkDev n
  cache : Cache n
  mem : Memory
  reset : Bool
  recalibrate : Bool
  doHd : Option Handler
  ctl : Controller
  disks : Disks
  /-- `do_hd_request` is to take its next turn. -/
  repeating : Bool
  retired : List (Slot × Bool)

/-- The drive of a minor number, and its sectors. -/
def Drives.find (D : Drives) (minor : BitVec 8) : Option (Drive × HdStruct) :=
  if h : minor.toNat < D.numberOfHd * 5 then
    have hlt : minor.toNat < MAX_HD * 5 :=
      Nat.lt_of_lt_of_le h (Nat.mul_le_mul_right 5 D.numberOfHd_le)
    some (⟨minor.toNat / 5, Nat.div_lt_of_lt_mul (Nat.mul_comm .. ▸ hlt)⟩, D.hd ⟨minor.toNat, hlt⟩)
  else none

/-- The ports that `hd_out` writes, one after another. -/
def Drives.command (D : Drives) (c : Controller) (drive : Drive)
    (nsect sect head cyl cmd : U32) : Controller :=
  let c := c.outB D.hdHw (D.hdHw drive).ctl .HD_CMD
  let c := c.outB D.hdHw ((D.hdHw drive).wpcom.sdiv 4) .HD_PRECOMP
  let c := c.outB D.hdHw nsect .HD_NSECTOR
  let c := c.outB D.hdHw sect .HD_SECTOR
  let c := c.outB D.hdHw cyl .HD_LCYL
  let c := c.outB D.hdHw (cyl >>> 8) .HD_HCYL
  let c := c.outB D.hdHw (0xA0 ||| (BitVec.ofNat 32 drive.val <<< 4) ||| head) .HD_CURRENT
  c.outB D.hdHw cmd .HD_COMMAND

/-- Some of the first `tries` statuses read satisfies `p`. -/
def polled (p : BitVec 8 → Bool) : Nat → List (BitVec 8) → Bool
  | tries + 1, status :: rest => p status || polled p tries rest
  | _, _ => false

/-- `controller_ready`: `--retries` leaves 9999 reads. -/
def controllerReady (statuses : List (BitVec 8)) : Bool :=
  polled (fun status => status &&& 0xC0 = 0x40) 9999 statuses

/-- The loop that waits for the controller to ask for data. -/
def drqSeen (statuses : List (BitVec 8)) : Bool :=
  polled (fun status => status &&& DRQ_STAT ≠ 0) 3000 statuses

structure Chs where
  sec : U32
  head : U32
  cyl : U32
deriving DecidableEq, Repr

/-- Where on the drive a sector is.  Sectors of a track are numbered from 1. -/
def chs (hw : HdHwInfo) (absBlock : U32) : Chs where
  sec := absBlock % hw.sect + 1
  head := absBlock / hw.sect % hw.head
  cyl := absBlock / hw.sect / hw.head

/-- `port_read(HD_DATA, buf, 256)`: 256 words, low byte first. -/
def portRead (m : Memory) (buf : U32) (x : Sector) : Memory :=
  copyIn m buf (fun i => x (Fin.ofNat 512 i)) 512

/-- What `port_write(HD_DATA, buf, 256)` sends. -/
def portWrite (m : Memory) (buf : U32) : Sector := fun i => m (buf + BitVec.ofNat 32 i)

/-- `((struct blk_request *) NULL)->errors`, the word at address 8. -/
def nullErrors (m : Memory) : U32 := m 11 ++ m 10 ++ m 9 ++ m 8

namespace Hd

variable {n : Nat}

def currReq (s : Hd n) : Option Slot := s.dev.reqQ BLK_DEV_NUM_HD

def setReq (s : Hd n) (req : Slot) (f : BlkRequest n → BlkRequest n) : Hd n :=
  { s with dev := s.dev.set req f }

def endRequest (s : Hd n) (uptodate : Bool) : Option (Hd n) :=
  s.currReq.bind fun req =>
    (s.dev.endRequest s.cache uptodate).map fun (d, c) =>
      { s with dev := d, cache := c, retired := s.retired ++ [(req, uptodate)] }

/-- `CURR_REQ->errors`. -/
def currErrors (s : Hd n) : U32 :=
  match s.currReq with
  | some req => (s.dev.request req).errors
  | none => nullErrors s.mem

def badRwIntr (s : Hd n) : Option (Hd n) := do
  let req ← s.currReq
  let s := s.setReq req fun r => { r with errors := r.errors + 1 }
  -- a request that is given up is off the queue when its errors are looked at again
  let s ← if MAX_ERRORS.sle s.currErrors then s.endRequest false else some s
  return { s with reset := s.reset || (MAX_ERRORS / 2).slt s.currErrors }

variable (D : Drives)

def hdOut (s : Hd n) (ready : List (BitVec 8)) (drive : Drive) (nsect sect head cyl cmd : U32)
    (intrAddr : Handler) : Option (Hd n) :=
  if 15 < head ∨ controllerReady ready = false then none
  else
    some { s with
      doHd := some intrAddr, ctl := D.command s.ctl drive nsect sect head cyl cmd }

def resetController (s : Hd n) : Hd n :=
  let c := s.ctl.outB D.hdHw (1 <<< 2) .HD_CMD
  { s with ctl := c.outB D.hdHw ((D.hdHw 0).ctl &&& 0xF) .HD_CMD }

def resetHd (s : Hd n) (ready : List (BitVec 8)) (nr : Drive) : Option (Hd n) :=
  let hw := D.hdHw nr
  (s.resetController D).hdOut D ready nr hw.sect hw.sect (hw.head - 1) hw.cyl
    CMD_INIT_DRIVE_PARAMETER .recalIntr

/-- A turn of `do_hd_request`, from the translation of `abs_block` on. -/
def issue (s : Hd n) (ready polls : List (BitVec 8)) (req : Slot) (dev : Drive)
    (absBlock : U32) : Option (Hd n) :=
  let hw := D.hdHw dev
  let r := s.dev.request req
  if hw.sect = 0 ∨ hw.head = 0 then none
  else
    let a := chs hw absBlock
    if s.reset then
      ({ s with reset := false, recalibrate := true, repeating := false }).resetHd D ready dev
    else if s.recalibrate then
      ({ s with recalibrate := false, repeating := false }).hdOut D ready dev hw.sect 0 0 0
        CMD_RESTORE .recalIntr
    else if r.cmd = BLK_WRITE then do
      let s ← s.hdOut D ready dev r.nrSector a.sec a.head a.cyl CMD_WRITE .writeIntr
      if drqSeen polls then
        return { s with ctl := s.ctl.give (portWrite s.mem r.buffer), repeating := false }
      else s.badRwIntr
    else if r.cmd = BLK_READ then
      ({ s with repeating := false }).hdOut D ready dev r.nrSector a.sec a.head a.cyl CMD_READ
        .readIntr
    else none

/-- One turn of `do_hd_request`. -/
def doHdRequest (s : Hd n) (ready polls : List (BitVec 8)) : Option (Hd n) :=
  match s.currReq with
  | none => some { s with repeating := false }
  | some req =>
    let r := s.dev.request req
    if MAJOR r.dev ≠ .ofNat 32 BLK_DEV_NUM_HD.val then none
    else if r.bh.any fun b => (s.cache.bh b).bLock = 0 then none
    else
      match D.find ((MINOR r.dev).setWidth 8) with
      | none => s.endRequest false
      | some (dev, part) =>
        if part.nrSects < r.sector + 2 then s.endRequest false
        else s.issue D ready polls req dev (r.sector + part.startSect)

/-! The handlers, up to the call of `do_hd_request`. -/

def recalIntr (s : Hd n) (status : BitVec 8) : Option (Hd n) :=
  if cmdResult status then s.badRwIntr else some s

def readIntr (s : Hd n) (status : BitVec 8) : Option (Hd n) :=
  if cmdResult status then s.badRwIntr
  else
    s.currReq.bind fun req =>
      let r := s.dev.request req
      let s := { s with mem := portRead s.mem r.buffer s.ctl.data }
      let s := s.setReq req fun r =>
        { r with
          errors := 0, buffer := r.buffer + 512, sector := r.sector + 1
          nrSector := r.nrSector - 1 }
      if (s.dev.request req).nrSector ≠ 0 then
        some { s with doHd := some .readIntr, repeating := false }
      else s.endRequest true

def writeIntr (s : Hd n) (status : BitVec 8) : Option (Hd n) :=
  if cmdResult status then s.badRwIntr
  else
    s.currReq.bind fun req =>
      let s := s.setReq req fun r => { r with nrSector := r.nrSector - 1 }
      if (s.dev.request req).nrSector ≠ 0 then
        let s := s.setReq req fun r =>
          { r with sector := r.sector + 1, buffer := r.buffer + 512 }
        some { s with
          doHd := some .writeIntr, repeating := false
          ctl := s.ctl.give (portWrite s.mem (s.dev.request req).buffer) }
      else s.endRequest true

/-- The handler that was waiting runs, and then, unless it returned before, `do_hd_request`. -/
def hdInterrupt (s : Hd n) (status : BitVec 8) : Option (Hd n) :=
  let s' := { s with doHd := none, repeating := true }
  match s.doHd with
  | none => some { s with doHd := none }
  | some .readIntr => s'.readIntr status
  | some .writeIntr => s'.writeIntr status
  | some .recalIntr => s'.recalIntr status

end Hd

/-! ## Steps -/

inductive HdAct
  /-- With the statuses that `controller_ready` and the wait for data read. -/
  | turn (ready polls : List (BitVec 8))
  | intr (status : BitVec 8) (junk : Sector)

namespace Hd

variable {n : Nat}

def next (D : Drives) (s : Hd n) : HdAct → Option (Hd n)
  | .turn ready polls => if s.repeating then s.doHdRequest D ready polls else none
  | .intr status junk =>
    if s.repeating then none
    else
      (s.ctl.interrupt s.disks status junk).bind fun (ctl, disks) =>
        ({ s with ctl := ctl, disks := disks }).hdInterrupt status

abbrev Step (D : Drives) := Steps (next (n := n) D)

end Hd

end Driver
end CherryOS
