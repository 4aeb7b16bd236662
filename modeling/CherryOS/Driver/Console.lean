import CherryOS.Kernel.Task
import CherryOS.Lib.Cells

/-!
# The console

`driver/console.c`: a screen of 25 lines in the video memory, its cursor, and the bytes that
`console_write` takes from a terminal's queue.  The variables that `console_init` sets once
to a number of its own are definitions here, and `size_per_line` is computed from the
character count.  `store` is the memory with the cells stored since the last byte was taken,
and `startHigh` and `startLow` are the display controller's registers 12 and 13.  The two
registers of the hardware cursor are what `console_write` puts out.
-/

namespace CherryOS
namespace Driver

open Kernel Lib

def DISPLAY_LINE_NR : Nat := 25

def VIDEO_MEM_START_ADDR : U32 := 0xB8000
def VIDEO_MEM_END_ADDR : U32 := 0xBC000

def BLANK : BitVec 16 := 0x0720

def V_ERASE : Nat := 2

/-- `enum console_parse_state` -/
inductive ParseState
  | normal | esi | csi1 | csi2 | csi3
deriving DecidableEq, Repr

structure Console where
  displayCharPerLine : BitVec 8
  state : ParseState
  scrollOriginMem : U32
  scrollEndMem : U32
  curPosMem : U32
  curPosX : BitVec 8
  curPosY : BitVec 8
  savedCurPosX : BitVec 8
  savedCurPosY : BitVec 8
  store : Store
  startHigh : BitVec 8
  startLow : BitVec 8

/-- What the BIOS left in memory. -/
structure Bios where
  curPosX : BitVec 8
  curPosY : BitVec 8
  chrCntPerLine : BitVec 8

namespace Console

/-- Register values of the display controller for an address. -/
def regHigh (addr : U32) : BitVec 8 := ((addr - VIDEO_MEM_START_ADDR) >>> 9).setWidth 8

def regLow (addr : U32) : BitVec 8 := ((addr - VIDEO_MEM_START_ADDR) >>> 1).setWidth 8

def sizePerLine (s : Console) : U32 := s.displayCharPerLine.setWidth 32 * 2

/-- What is written to registers 14 and 15. -/
def updateCursor (s : Console) : BitVec 8 × BitVec 8 := (regHigh s.curPosMem, regLow s.curPosMem)

def curGotoPos (s : Console) (newX newY : BitVec 8) : Console × U32 :=
  if s.displayCharPerLine < newX ∨ DISPLAY_LINE_NR < newY.toNat then (s, 0)
  else
    ({ s with
        curPosX := newX
        curPosY := newY
        curPosMem := s.scrollOriginMem + s.sizePerLine * newY.setWidth 32 + newX.setWidth 32 * 2 },
      1)

def updateScroll (s : Console) : Console :=
  { s with startHigh := regHigh s.scrollOriginMem, startLow := regLow s.scrollOriginMem }

def scrollUp (s : Console) : Console :=
  let cols := s.displayCharPerLine.toNat
  if VIDEO_MEM_END_ADDR < s.scrollEndMem + s.sizePerLine then
    -- the rows but the first move to the start of the video memory
    let store := s.store.copyUp VIDEO_MEM_START_ADDR (s.scrollOriginMem + s.sizePerLine)
      (cols * (DISPLAY_LINE_NR - 1))
    let origin := VIDEO_MEM_START_ADDR
    let ending := origin + s.sizePerLine * BitVec.ofNat 32 DISPLAY_LINE_NR
    updateScroll
      { s with
        scrollOriginMem := origin
        scrollEndMem := ending
        store := store.fill (ending - s.sizePerLine) BLANK cols
        curPosMem := origin + s.curPosY.setWidth 32 * s.sizePerLine + s.curPosX.setWidth 32 * 2 }
  else
    updateScroll
      { s with
        store := s.store.fill s.scrollEndMem BLANK cols
        scrollOriginMem := s.scrollOriginMem + s.sizePerLine
        scrollEndMem := s.scrollEndMem + s.sizePerLine
        curPosMem := s.curPosMem + s.sizePerLine }

def scrollDown (s : Console) : Console :=
  let cols := s.displayCharPerLine.toNat
  let store := s.store.copyDown (s.scrollOriginMem + BitVec.ofNat 32 (2 * cols)) s.scrollOriginMem
    (cols * (DISPLAY_LINE_NR - 1))
  { s with store := store.fill s.scrollOriginMem BLANK cols }

def cr (s : Console) : Console :=
  { s with curPosMem := s.curPosMem - s.curPosX.setWidth 32 * 2, curPosX := 0 }

def lf (s : Console) : Console :=
  if s.curPosY.toNat + 1 ≤ DISPLAY_LINE_NR - 1 then
    { s with curPosY := s.curPosY + 1, curPosMem := s.curPosMem + s.sizePerLine }
  else s.scrollUp

def ri (s : Console) : Console :=
  if 0 < s.curPosY then
    { s with curPosY := s.curPosY - 1, curPosMem := s.curPosMem - s.sizePerLine }
  else s.scrollDown

def del (s : Console) : Console :=
  if s.curPosX = 0 then s
  else
    { s with
      curPosX := s.curPosX - 1
      curPosMem := s.curPosMem - 2
      store := s.store.put (s.curPosMem - 2) BLANK }

/-- The characters of `brief_info`. -/
def briefInfo : List (BitVec 8) := [0x45, 0x47, 0x41, 0x43]

def consoleInit (bios : Bios) (s : Console) : Console :=
  let s := { s with displayCharPerLine := bios.chrCntPerLine }
  let corner := VIDEO_MEM_START_ADDR + s.displayCharPerLine.setWidth 32 * 2 - 4 * 2
  let brief := briefInfo.zipIdx.foldl
    (fun store c => store.putLow (corner + BitVec.ofNat 32 (2 * c.2)) c.1) s.store
  let s :=
    { s with
      store := brief
      scrollOriginMem := VIDEO_MEM_START_ADDR
      scrollEndMem := VIDEO_MEM_START_ADDR + s.sizePerLine * BitVec.ofNat 32 DISPLAY_LINE_NR }
  (s.curGotoPos bios.curPosX bios.curPosY).1

/-! ## Bytes -/

/-- A displayable character. -/
def printChar (c : BitVec 8) (s : Console) : Console :=
  -- at the end of the line the cursor goes to the next one first
  let s :=
    if s.displayCharPerLine ≤ s.curPosX then
      lf { s with
        curPosX := s.curPosX - s.displayCharPerLine
        curPosMem := s.curPosMem - s.sizePerLine }
    else s
  { s with
    store := s.store.put s.curPosMem (0x0700 + c.setWidth 16)
    curPosX := s.curPosX + 1
    curPosMem := s.curPosMem + 2 }

def horizontalTab (s : Console) : Console :=
  let htOffset := 8 - (s.curPosX &&& 7)
  if s.displayCharPerLine.toNat < s.curPosX.toNat + htOffset.toNat then
    lf { s with
      curPosX := s.curPosX - (s.displayCharPerLine - htOffset)
      curPosMem := s.curPosMem - (s.displayCharPerLine.setWidth 32 - htOffset.setWidth 32) * 2 }
  else
    { s with curPosX := s.curPosX + htOffset, curPosMem := s.curPosMem + htOffset.setWidth 32 * 2 }

def backspace (s : Console) : Console :=
  if s.curPosX = 0 then s
  else { s with curPosX := s.curPosX - 1, curPosMem := s.curPosMem - 2 }

/-- The case `NORMAL`.  A `char` is signed, and `c_cc` holds unsigned bytes. -/
def normalByte (erase c : BitVec 8) (s : Console) : Console :=
  if 0x1F < c.toInt ∧ c.toInt < 0x7F then s.printChar c
  else if c = 0x1B then { s with state := .esi }
  else if c = 0x0A ∨ c = 0x0B ∨ c = 0x0C then s.lf
  else if c = 0x0D then s.cr
  else if c.toInt = erase.toNat then s.del
  else if c = 0x08 then s.backspace
  else if c = 0x09 then s.horizontalTab
  else s

/-- The case `ESI`. -/
def escapeByte (c : BitVec 8) (s : Console) : Console :=
  let s := { s with state := .normal }
  if c = 0x5B then { s with state := .csi1 }
  else if c = 0x45 then (s.curGotoPos 0 (s.curPosY + 1)).1
  else if c = 0x44 then s.lf
  else if c = 0x4D then s.ri
  else if c = 0x37 then { s with savedCurPosX := s.curPosX, savedCurPosY := s.curPosY }
  else if c = 0x38 then (s.curGotoPos s.savedCurPosX s.savedCurPosY).1
  else s

/-- The cells stored so far are not recorded any longer. -/
def forget (s : Console) : Console := { s with store := { s.store with stored := [] } }

/-- One pass of the loop of `console_write`, with the cells stored before it forgotten. -/
def writeByte (erase : BitVec 8) (s : Console) (c : BitVec 8) : Console :=
  match s.state with
  | .normal => s.forget.normalByte erase c
  | .esi => s.forget.escapeByte c
  | .csi1 => s.forget
  | .csi2 => s.forget
  | .csi3 => s.forget

/-- The states after a control sequence's introducer take every byte and do nothing. -/
theorem writeByte_cases (erase : BitVec 8) (s : Console) (c : BitVec 8) :
    s.state = .normal ∧ s.writeByte erase c = s.forget.normalByte erase c ∨
      s.state = .esi ∧ s.writeByte erase c = s.forget.escapeByte c ∨
      s.state ≠ .normal ∧ s.state ≠ .esi ∧ s.writeByte erase c = s.forget := by
  unfold writeByte
  cases s.state with
  | normal => exact Or.inl ⟨rfl, rfl⟩
  | esi => exact Or.inr (Or.inl ⟨rfl, rfl⟩)
  | csi1 | csi2 | csi3 => exact Or.inr (Or.inr ⟨by decide, by decide, rfl⟩)

end Console

/-! ## The queue -/

def TTY_BUF_SIZE : U32 := 1024

structure TtyQueue where
  head : U32
  tail : U32
  buf : U32 → BitVec 8

namespace TtyQueue

/-- `INC` of the tail -/
def incTail (q : TtyQueue) : TtyQueue := { q with tail := (q.tail + 1) &&& (TTY_BUF_SIZE - 1) }

def READ_SPACE (q : TtyQueue) : U32 := (q.head - q.tail) &&& (TTY_BUF_SIZE - 1)

end TtyQueue

structure TtyStruct where
  cCc : Nat → BitVec 8
  writeQ : TtyQueue

namespace Console

/-- The loop of `console_write`, `nr` times. -/
def writeLoop : Nat → TtyStruct → Console → TtyStruct × Console
  | 0, tty, s => (tty, s)
  | nr + 1, tty, s =>
    let c := tty.writeQ.buf tty.writeQ.tail
    writeLoop nr { tty with writeQ := tty.writeQ.incTail } (s.writeByte (tty.cCc V_ERASE) c)

theorem writeLoop_queue (n : Nat) (tty : TtyStruct) (s : Console) :
    (writeLoop n tty s).1.writeQ = TtyQueue.incTail^[n] tty.writeQ := by
  induction n generalizing tty s with
  | zero => rfl
  | succ n ih =>
    rw [writeLoop, ih]
    rfl

/-- `console_write`, with the values it leaves in the registers of the hardware cursor. -/
def consoleWrite (tty : TtyStruct) (s : Console) : TtyStruct × Console × BitVec 8 × BitVec 8 :=
  let (tty, s) := writeLoop tty.writeQ.READ_SPACE.toNat tty s
  (tty, s, s.updateCursor)

end Console

end Driver
end CherryOS
