import CherryOS.Kernel.Task
import CherryOS.Lib.Stack

/-!
# vsprintf

`vsprintf` of `kernel/vsprintf.c`.  A pointer into the format is what is left of the format,
without its NUL, so that it can be at the NUL but not past it: stepping past is a fault.  The
argument list is the words that `va_arg` takes one after the other, and taking one that is not
there is a fault too.  The bytes stored in the buffer are a list.  The buffer, the format and
the arguments lie apart from the memory that `%s` reads and `%n` writes.
-/

namespace CherryOS
namespace Kernel

open Lib

/-- The byte of a character. -/
def ch (c : Char) : BitVec 8 := BitVec.ofNat 8 c.toNat

/-- `is_digit(c)` -/
def IsDigit (c : BitVec 8) : Prop := ch '0' ≤ c ∧ c ≤ ch '9'

instance (c : BitVec 8) : Decidable (IsDigit c) := inferInstanceAs (Decidable (_ ∧ _))

def ZEROPAD : U32 := 1
def SIGN : U32 := 2
def PLUS : U32 := 4
def SPACE : U32 := 8
def LEFT : U32 := 16
def SPECIAL : U32 := 32
def SMALL : U32 := 64

inductive FormatFault
  /-- The format is left at its NUL. -/
  | pastEnd
  | noArgs
  /-- `number` has returned 0 for the place where the output goes on. -/
  | nullStr
  | hang
deriving DecidableEq, Repr

/-! ## Loops that count down

Each gives the bytes it stores and what it leaves of its counter.  The theorems with `_turn`
unroll the loops by a turn. -/

/-- `while (size-- > 0) *str++ = b;` -/
def whilePositive (b : BitVec 8) (size : Int32) : List (BitVec 8) × Int32 :=
  (List.replicate size.toInt.toNat b, (if 0 < size then 0 else size) - 1)

/-- `while (--size > 0) *str++ = b;` -/
def whileStillPositive (b : BitVec 8) (size : Int32) : List (BitVec 8) × Int32 :=
  (List.replicate (size - 1).toInt.toNat b, if 0 < size - 1 then 0 else size - 1)

/-- `while (len < size--) *str++ = b;` -/
def whileAbove (b : BitVec 8) (len size : Int32) : List (BitVec 8) × Int32 :=
  (List.replicate (size.toInt - len.toInt).toNat b, (if len < size then len else size) - 1)

theorem toInt_sub_of_range {a b : Int32} (h : -2 ^ 31 ≤ a.toInt - b.toInt)
    (h' : a.toInt - b.toInt < 2 ^ 31) : (a - b).toInt = a.toInt - b.toInt := by
  rw [Int32.toInt_sub]
  exact Int.bmod_eq_of_le (by omega) (by omega)

theorem toInt_pred_of_lt {len size : Int32} (h : len < size) : (size - 1).toInt = size.toInt - 1 := by
  have hlt := Int32.lt_iff_toInt_lt.mp h
  have hge := len.le_toInt
  have hle := size.toInt_lt
  have hone : (1 : Int32).toInt = 1 := rfl
  rw [toInt_sub_of_range (by omega) (by omega), hone]

theorem whileAbove_turn (b : BitVec 8) (len size : Int32) :
    whileAbove b len size =
      if len < size then
        (b :: (whileAbove b len (size - 1)).1, (whileAbove b len (size - 1)).2)
      else ([], size - 1) := by
  by_cases h : len < size
  · have hlt := Int32.lt_iff_toInt_lt.mp h
    have hpred := toInt_pred_of_lt h
    have hcount : (size.toInt - len.toInt).toNat =
        ((size - 1).toInt - len.toInt).toNat + 1 := by omega
    have hlast : (if len < size - 1 then len else size - 1) = len := by
      split
      · rfl
      · rename_i hno
        have hno : ¬ len.toInt < (size - 1).toInt := fun hc => hno (Int32.lt_iff_toInt_lt.mpr hc)
        exact Int32.toInt_inj.mp (by omega)
    rw [if_pos h, whileAbove, whileAbove, if_pos h, hlast, hcount, List.replicate_succ]
  · have hle : size.toInt - len.toInt ≤ 0 := by
      have hno : ¬ len.toInt < size.toInt := fun hc => h (Int32.lt_iff_toInt_lt.mpr hc)
      omega
    rw [if_neg h, whileAbove, if_neg h, Int.toNat_of_nonpos hle]
    rfl

theorem whilePositive_eq (b : BitVec 8) (size : Int32) :
    whilePositive b size = whileAbove b 0 size := by
  have hzero : (0 : Int32).toInt = 0 := rfl
  rw [whilePositive, whileAbove, hzero, Int.sub_zero]

theorem whilePositive_turn (b : BitVec 8) (size : Int32) :
    whilePositive b size =
      if 0 < size then (b :: (whilePositive b (size - 1)).1, (whilePositive b (size - 1)).2)
      else ([], size - 1) := by
  rw [whilePositive_eq, whilePositive_eq, whileAbove_turn]

theorem whileStillPositive_eq (b : BitVec 8) (size : Int32) :
    whileStillPositive b size =
      ((whilePositive b (size - 1)).1, (whilePositive b (size - 1)).2 + 1) := by
  rw [whileStillPositive, whilePositive, Int32.sub_add_cancel]

theorem whileStillPositive_turn (b : BitVec 8) (size : Int32) :
    whileStillPositive b size =
      if 0 < size - 1 then
        (b :: (whileStillPositive b (size - 1)).1, (whileStillPositive b (size - 1)).2)
      else ([], size - 1) := by
  rw [whileStillPositive_eq, whilePositive_turn, whileStillPositive_eq]
  split
  · rfl
  · rw [Int32.sub_add_cancel]

/-! ## `number` -/

/-- An entry of the table `digits`. -/
def digitChar (small : Bool) (r : Nat) : BitVec 8 :=
  if r < 10 then ch '0' + BitVec.ofNat 8 r
  else (if small then ch 'a' else ch 'A') + BitVec.ofNat 8 (r - 10)

/-- The loop of `do_div`, which stores the last digit first.  No word has more than 32 digits. -/
def divLoop (small : Bool) (base : Nat) : Nat → Nat → List (BitVec 8)
  | 0, _ => []
  | fuel + 1, num =>
    if num = 0 then [] else digitChar small (num % base) :: divLoop small base fuel (num / base)

/-- What `number` stores.  `none` is the null pointer it returns for a base it does not know. -/
def number (num : U32) (base size precision : Int32) (type : U32) : Option (List (BitVec 8)) :=
  let small := decide (type &&& SMALL ≠ 0)
  let type := if type &&& LEFT ≠ 0 then type &&& ~~~ZEROPAD else type
  if base < 2 ∨ 36 < base then none
  else
    let c := if type &&& ZEROPAD ≠ 0 then ch '0' else ch ' '
    let negative := type &&& SIGN ≠ 0 ∧ num.toInt < 0
    let sign :=
      if negative then ch '-'
      else if type &&& PLUS ≠ 0 then ch '+'
      else if type &&& SPACE ≠ 0 then ch ' '
      else 0
    let num := if negative then -num else num
    let size := if sign ≠ 0 then size - 1 else size
    let size :=
      if type &&& SPECIAL ≠ 0 then
        if base = 16 then size - 2 else if base = 8 then size - 1 else size
      else size
    let tmp := if num = 0 then [ch '0'] else divLoop small base.toInt.toNat 32 num.toNat
    let i := Int32.ofNat tmp.length
    let precision := if precision < i then i else precision
    let size := size - precision
    let (blanks, size) :=
      if type &&& (ZEROPAD + LEFT) = 0 then whilePositive (ch ' ') size else ([], size)
    let special :=
      if type &&& SPECIAL ≠ 0 then
        if base = 8 then [ch '0']
        else if base = 16 then [ch '0', digitChar small 33]
        else []
      else []
    let (padding, size) := if type &&& LEFT = 0 then whilePositive c size else ([], size)
    let zeros := (whileAbove (ch '0') i precision).1
    let trail := (whilePositive (ch ' ') size).1
    some (blanks ++ (if sign ≠ 0 then [sign] else []) ++ special ++ padding ++ zeros ++
      tmp.reverse ++ trail)

/-! ## The format and the arguments -/

/-- `*fmt` -/
def deref (fmt : List (BitVec 8)) : BitVec 8 := fmt.headD 0

/-- `++fmt` -/
def advance : List (BitVec 8) → Except FormatFault (List (BitVec 8))
  | [] => .error .pastEnd
  | _ :: fmt => .ok fmt

/-- `va_arg` -/
def vaArg : List U32 → Except FormatFault (U32 × List U32)
  | [] => .error .noArgs
  | v :: args => .ok (v, args)

/-- `skip_atoi`, from `i` on. -/
def skipAtoi : List (BitVec 8) → Int32 → List (BitVec 8) × Int32
  | [], i => ([], i)
  | c :: fmt, i =>
    if IsDigit c then skipAtoi fmt (i * 10 + Int32.ofNat c.toNat - 48) else (c :: fmt, i)

/-- A directive as far as it has been read. -/
structure Scan where
  fmt : List (BitVec 8)
  args : List U32
  flags : U32
  fieldWidth : Int32
  precision : Int32
deriving DecidableEq, Repr

/-- The flag that a character stands for. -/
def flagOf (c : BitVec 8) : Option U32 :=
  if c = ch '-' then some LEFT
  else if c = ch '+' then some PLUS
  else if c = ch ' ' then some SPACE
  else if c = ch '#' then some SPECIAL
  else if c = ch '0' then some ZEROPAD
  else none

/-- From the label `repeat` on. -/
def scanFlags : List (BitVec 8) → U32 → Except FormatFault (List (BitVec 8) × U32)
  | [], _ => .error .pastEnd
  | _ :: fmt, flags =>
    match flagOf (deref fmt) with
    | some flag => scanFlags fmt (flags ||| flag)
    | none => .ok (fmt, flags)

/-- For a width that is not negative `fmt` stays at the `*`. -/
def scanWidth (s : Scan) : Except FormatFault Scan :=
  if IsDigit (deref s.fmt) then
    let (fmt, w) := skipAtoi s.fmt 0
    .ok { s with fmt := fmt, fieldWidth := w }
  else if deref s.fmt = ch '*' then do
    let (v, args) ← vaArg s.args
    let w : Int32 := .ofBitVec v
    if w < 0 then
      let fmt ← advance s.fmt
      .ok { s with fmt := fmt, args := args, fieldWidth := -w, flags := s.flags ||| LEFT }
    else .ok { s with args := args, fieldWidth := w }
  else .ok s

/-- After the `.` -/
def scanDigits (s : Scan) : Except FormatFault Scan :=
  if IsDigit (deref s.fmt) then
    let (fmt, p) := skipAtoi s.fmt 0
    .ok { s with fmt := fmt, precision := p }
  else if deref s.fmt = ch '*' then do
    let fmt ← advance s.fmt
    let (v, args) ← vaArg s.args
    .ok { s with fmt := fmt, args := args, precision := .ofBitVec v }
  else .ok s

def scanPrecision (s : Scan) : Except FormatFault Scan :=
  if deref s.fmt = ch '.' then do
    let fmt ← advance s.fmt
    let s ← scanDigits { s with fmt := fmt }
    .ok (if s.precision < 0 then { s with precision := 0 } else s)
  else .ok s

def scanQualifier (s : Scan) : Except FormatFault Scan :=
  if deref s.fmt = ch 'h' ∨ deref s.fmt = ch 'l' ∨ deref s.fmt = ch 'L' then do
    let fmt ← advance s.fmt
    .ok { s with fmt := fmt }
  else .ok s

/-- A directive up to its conversion character. -/
def scan (fmt : List (BitVec 8)) (args : List U32) : Except FormatFault Scan := do
  let (fmt, flags) ← scanFlags fmt 0
  let s ← scanWidth { fmt := fmt, args := args, flags := flags, fieldWidth := -1, precision := -1 }
  let s ← scanPrecision s
  scanQualifier s

/-! ## Conversions -/

/-- `repne scasb` for a zero byte: what is left of `ecx`. -/
def repneScasb (mem : Bytes32) : Nat → U32 → Nat
  | 0, _ => 0
  | ecx + 1, edi => if mem edi = 0 then ecx else repneScasb mem ecx (edi + 1)

def strlen (mem : Bytes32) (s : U32) : Int32 :=
  .ofBitVec (~~~ BitVec.ofNat 32 (repneScasb mem 0xFFFFFFFF s) - 1)

/-- What a conversion stores, and what it leaves of the memory and the arguments. -/
structure Converted where
  put : List (BitVec 8)
  mem : Bytes32
  args : List U32

section
variable (mem : Bytes32) (s : Scan)

/-- A conversion by `number`. -/
def convertNumber (base : Int32) : Except FormatFault Converted := do
  let (v, args) ← vaArg s.args
  match number v base s.fieldWidth s.precision s.flags with
  | none => .error .nullStr
  | some bytes => .ok { put := bytes, mem := mem, args := args }

def convertChar : Except FormatFault Converted := do
  let (lead, width) :=
    if s.flags &&& LEFT = 0 then whileStillPositive (ch ' ') s.fieldWidth else ([], s.fieldWidth)
  let (v, args) ← vaArg s.args
  let trail := (whileStillPositive (ch ' ') width).1
  .ok { put := lead ++ v.setWidth 8 :: trail, mem := mem, args := args }

def convertString : Except FormatFault Converted := do
  let (v, args) ← vaArg s.args
  let len := strlen mem v
  let len := if s.precision < 0 then len else if s.precision < len then s.precision else len
  let (lead, width) :=
    if s.flags &&& LEFT = 0 then whileAbove (ch ' ') len s.fieldWidth else ([], s.fieldWidth)
  let bytes := (List.range len.toInt.toNat).map fun i => mem (v + BitVec.ofNat 32 i)
  let trail := (whileAbove (ch ' ') len width).1
  .ok { put := lead ++ bytes ++ trail, mem := mem, args := args }

/-- The `switch`, with `count` bytes in the buffer. -/
def convert (count : Nat) : Except FormatFault Converted :=
  let c := deref s.fmt
  if c = ch 'c' then convertChar mem s
  else if c = ch 's' then convertString mem s
  else if c = ch 'o' then convertNumber mem s 8
  else if c = ch 'p' then
    if s.fieldWidth = -1 then
      convertNumber mem { s with fieldWidth := 8, flags := s.flags ||| ZEROPAD } 16
    else convertNumber mem s 16
  else if c = ch 'x' then convertNumber mem { s with flags := s.flags ||| SMALL } 16
  else if c = ch 'X' then convertNumber mem s 16
  else if c = ch 'd' ∨ c = ch 'i' then convertNumber mem { s with flags := s.flags ||| SIGN } 10
  else if c = ch 'u' then convertNumber mem s 10
  else if c = ch 'n' then do
    let (v, args) ← vaArg s.args
    .ok { put := [], mem := writeWord mem v (BitVec.ofNat 32 count), args := args }
  else
    let percent := if c ≠ ch '%' then [ch '%'] else []
    .ok { put := percent ++ if c ≠ 0 then [c] else [], mem := mem, args := s.args }

end

/-! ## The outer loop -/

/-- The state of the outer loop: `str - buf` is the length of `out`. -/
structure Printer where
  fmt : List (BitVec 8)
  args : List U32
  out : List (BitVec 8)
  mem : Bytes32

/-- A turn of the loop with its `++fmt`.  At the NUL the `switch` has gone back a byte, so the
`++fmt` comes to the NUL again. -/
def turn (p : Printer) : Except FormatFault Printer :=
  if deref p.fmt ≠ ch '%' then do
    let fmt ← advance p.fmt
    .ok { p with fmt := fmt, out := p.out ++ [deref p.fmt] }
  else do
    let s ← scan p.fmt p.args
    let r ← convert p.mem s p.out.length
    let fmt ← if deref s.fmt = 0 then .ok s.fmt else advance s.fmt
    .ok { fmt := fmt, args := r.args, out := p.out ++ r.put, mem := r.mem }

/-- At most `n` turns. -/
def printLoop : Nat → Printer → Except FormatFault Printer
  | 0, p => if deref p.fmt = 0 then .ok p else .error .hang
  | n + 1, p => if deref p.fmt = 0 then .ok p else turn p >>= printLoop n

/-- What `vsprintf` has stored, what it returns, and the arguments it has not taken. -/
structure Printed where
  buf : List (BitVec 8)
  ret : Int32
  args : List U32
  mem : Bytes32

/-- As many turns as the format has bytes are enough. -/
def vsprintf (mem : Bytes32) (fmt : List (BitVec 8)) (args : List U32) :
    Except FormatFault Printed := do
  let p ← printLoop fmt.length { fmt := fmt, args := args, out := [], mem := mem }
  .ok { buf := p.out ++ [0], ret := Int32.ofNat p.out.length, args := p.args, mem := p.mem }

end Kernel
end CherryOS
