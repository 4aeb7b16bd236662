import CherryOS.Driver.TtyQueue

/-!
# The terminal

`driver/tty_io.c`: `copy_to_cooked` takes the bytes of `read_q`, edits the line in
`secondary` with them, and puts what is to be echoed in `write_q`.  The function that a
terminal writes with is `console_write`, the only one there is.  The field `data` is the one
of `secondary`, which counts lines; the others have none here because nothing reads them.
`L_ISIG` has an empty branch in the source and none here.
-/

namespace CherryOS
namespace Driver

open Kernel

def ASC_CR : BitVec 8 := 0x0D
def ASC_NL : BitVec 8 := 0x0A
def ASC_DEL : BitVec 8 := 0x1F

def I_CRNL : U32 := 0x400
def I_IGNCR : U32 := 0x200
def I_NLCR : U32 := 0x100
def I_UCLC : U32 := 0x1000

def O_POST : U32 := 0x001
def O_NLCR : U32 := 0x004

def L_ISIG : U32 := 0x001
def L_ICANON : U32 := 0x002
def L_ECHO : U32 := 0x010
def L_ECHOCTL : U32 := 0x1000
def L_ECHOKE : U32 := 0x4000

def V_KILL : Nat := 3
def V_EOF : Nat := 4
def V_START : Nat := 8
def V_STOP : Nat := 9

/-- `tolower`: the letters whose class in `_ctype` is `_U` are `A` to `Z`. -/
def tolower (c : BitVec 8) : BitVec 8 := if 0x41 ≤ c ∧ c ≤ 0x5A then c + 0x20 else c

structure Termios where
  cIflag : U32
  cOflag : U32
  cLflag : U32
  cCc : Nat → BitVec 8

namespace Termios

/-- The first comparisons of the loop: what becomes of a byte, if it is not ignored. -/
def mapChar (t : Termios) (c : BitVec 8) : Option (BitVec 8) :=
  let lower := fun c => if t.cIflag &&& I_UCLC ≠ 0 then tolower c else c
  if c = ASC_CR then
    if t.cIflag &&& I_CRNL ≠ 0 then some (lower ASC_NL)
    else if t.cIflag &&& I_IGNCR ≠ 0 then none
    else some (lower c)
  else if c = ASC_NL ∧ t.cIflag &&& I_NLCR ≠ 0 then some (lower ASC_CR)
  else some (lower c)

/-- `c == c_cc[i]`.  A `char` is signed, and `c_cc` holds unsigned bytes. -/
def isCc (t : Termios) (i : Nat) (c : BitVec 8) : Prop := c.toInt = (t.cCc i).toNat

instance (t : Termios) (i : Nat) (c : BitVec 8) : Decidable (t.isCc i c) :=
  inferInstanceAs (Decidable (_ = _))

/-- What a queued character puts in `write_q`. -/
def echo (t : Termios) (c : BitVec 8) : List (BitVec 8) :=
  if t.cLflag &&& L_ECHO ≠ 0 then
    if c = ASC_NL then
      if t.cOflag &&& O_NLCR ≠ 0 then [ASC_NL, ASC_CR] else [ASC_NL]
    else if c.toInt < 0x20 then [0x5E, c + 0x40]
    else [c]
  else []

end Termios

structure Tty where
  termios : Termios
  stopped : U32
  readQ : TtyQueue
  writeQ : TtyQueue
  secondary : TtyQueue
  data : U32

/-- What `console_write` reads of a terminal. -/
def Tty.toTtyStruct (t : Tty) : TtyStruct := { cCc := t.termios.cCc, writeQ := t.writeQ }

/-- A terminal and its console.  `overrun` is not in the source, and nothing reads it: it
records that a byte was put in a full `write_q`. -/
structure Terminal where
  tty : Tty
  console : Console
  overrun : Bool

namespace Terminal

def putWrite (c : BitVec 8) (s : Terminal) : Terminal :=
  { s with
    tty := { s.tty with writeQ := s.tty.writeQ.put c }
    overrun := s.overrun || decide s.tty.writeQ.FULL }

def putWrites (s : Terminal) (bytes : List (BitVec 8)) : Terminal :=
  bytes.foldl (fun s c => s.putWrite c) s

/-- `tty->write(tty)` -/
def write (s : Terminal) : Terminal :=
  let r := s.console.consoleWrite s.tty.toTtyStruct
  { s with tty := { s.tty with writeQ := r.1.writeQ }, console := r.2.1 }

def withReadQ (q : TtyQueue) (s : Terminal) : Terminal :=
  { s with tty := { s.tty with readQ := q } }

def withSecondary (q : TtyQueue) (s : Terminal) : Terminal :=
  { s with tty := { s.tty with secondary := q } }

/-- The echo of a character taken back. -/
def echoErase (c : BitVec 8) (s : Terminal) : Terminal :=
  if s.tty.termios.cLflag &&& L_ECHO ≠ 0 then
    (s.putWrites (if c.toInt < 0x20 then [ASC_DEL, ASC_DEL] else [ASC_DEL])).write
  else s

/-- The character before the head of `secondary` is taken back, if it is one of the
unfinished line. -/
def takeBack (s : Terminal) : Option Terminal :=
  let c := s.tty.secondary.LAST
  if s.tty.secondary.EMPTY then none
  else if c = ASC_NL ∨ s.tty.termios.isCc V_EOF c then none
  else some ((s.withSecondary s.tty.secondary.decHead).echoErase c)

/-- The loop under `V_KILL`. -/
def killLoop : Nat → Terminal → Terminal
  | 0, s => s
  | n + 1, s =>
    match s.takeBack with
    | none => s
    | some s => killLoop n s

/-- Each round but the last takes a character from `secondary`. -/
def kill (s : Terminal) : Terminal := s.killLoop s.tty.secondary.READ_SPACE.toNat

def erase (s : Terminal) : Terminal := s.takeBack.getD s

def countLine (c : BitVec 8) (s : Terminal) : Terminal :=
  if c = ASC_NL ∨ s.tty.termios.isCc V_EOF c then
    { s with tty := { s.tty with data := s.tty.data + 1 } }
  else s

/-- A character that is not an editing one. -/
def queueChar (c : BitVec 8) (s : Terminal) : Terminal :=
  let s := s.countLine c
  let s := s.putWrites (s.tty.termios.echo c)
  s.withSecondary (s.tty.secondary.put c)

/-- What is done with a mapped character. -/
def cookChar (c : BitVec 8) (s : Terminal) : Terminal :=
  let t := s.tty.termios
  if t.cIflag &&& L_ICANON ≠ 0 then
    if t.isCc V_KILL c then s.kill
    else if t.isCc V_ERASE c then s.erase
    else if t.isCc V_STOP c then { s with tty := { s.tty with stopped := 1 } }
    else if t.isCc V_START c then { s with tty := { s.tty with stopped := 0 } }
    else s.queueChar c
  else s.queueChar c

/-- One pass of the loop of `copy_to_cooked`. -/
def cookNext (s : Terminal) : Terminal :=
  let c := s.tty.readQ.buf s.tty.readQ.tail
  let s := s.withReadQ s.tty.readQ.incTail
  match s.tty.termios.mapChar c with
  | none => s
  | some c => s.cookChar c

def cookLoop : Nat → Terminal → Terminal
  | 0, s => s
  | n + 1, s =>
    if s.tty.readQ.EMPTY ∨ s.tty.secondary.FULL then s else cookLoop n s.cookNext

/-- Each pass takes a byte from `read_q`. -/
def copyToCooked (s : Terminal) : Terminal := s.cookLoop s.tty.readQ.READ_SPACE.toNat

end Terminal

/-! ## The terminal of the kernel -/

/-- The `termios` of `kernel_tty` and of `tty_table[0]`. -/
def kernelTermios : Termios :=
  { cIflag := I_CRNL
    cOflag := O_NLCR ||| O_POST
    cLflag := L_ISIG ||| L_ICANON ||| L_ECHO ||| L_ECHOCTL ||| L_ECHOKE
    cCc := fun i =>
      [0x03, 0x1C, 0x7F, 0x15, 0x04, 0x00, 0x01, 0x00, 0x11,
        0x13, 0x1A, 0x00, 0x12, 0x0F, 0x17, 0x16, 0x00].getD i 0 }

end Driver
end CherryOS
