import CherryOS.Kernel.Star
import CherryOS.Kernel.Number

/-!
# The language of formats

A format is a list of items: bytes to copy, and directives with flags, width, precision and
qualifier.  Here is what each item is for, without the text and without the loops: what it
takes from the arguments and what it puts.  `vsprintf` of the text does what the items are for.

A `*` for a width is in the language with a negative argument only.  What `vsprintf` does with
another is no width.
-/

namespace CherryOS
namespace Kernel

open Lib

namespace Format

/-! ## Items and their text -/

inductive Flag
  | minus
  | plus
  | space
  | sharp
  | zero
deriving DecidableEq

inductive Width
  | none
  | number (n : Nat)
  | star
deriving DecidableEq

inductive Precision
  | none
  | bare
  | number (n : Nat)
  | star
deriving DecidableEq

inductive Qualifier
  | h
  | l
  | L
deriving DecidableEq

inductive Conversion
  | c
  | s
  | o
  | p
  | x
  | X
  | d
  | i
  | u
  | n
  | percent
deriving DecidableEq

structure Directive where
  flags : List Flag
  width : Width
  precision : Precision
  qualifier : Option Qualifier
  conversion : Conversion

inductive Item
  | byte (c : BitVec 8)
  | directive (d : Directive)

def Flag.char : Flag → BitVec 8
  | minus => ch '-'
  | plus => ch '+'
  | space => ch ' '
  | sharp => ch '#'
  | zero => ch '0'

def Width.text : Width → List (BitVec 8)
  | none => []
  | number n => decimal n
  | star => [ch '*']

def Precision.text : Precision → List (BitVec 8)
  | none => []
  | bare => [ch '.']
  | number n => ch '.' :: decimal n
  | star => [ch '.', ch '*']

def Qualifier.char : Qualifier → BitVec 8
  | h => ch 'h'
  | l => ch 'l'
  | L => ch 'L'

def Conversion.char : Conversion → BitVec 8
  | c => ch 'c'
  | s => ch 's'
  | o => ch 'o'
  | p => ch 'p'
  | x => ch 'x'
  | X => ch 'X'
  | d => ch 'd'
  | i => ch 'i'
  | u => ch 'u'
  | n => ch 'n'
  | percent => ch '%'

def Directive.text (d : Directive) : List (BitVec 8) :=
  ch '%' :: (d.flags.map Flag.char ++ (d.width.text ++ (d.precision.text ++
    ((d.qualifier.map Qualifier.char).toList ++ [d.conversion.char]))))

def Item.text : Item → List (BitVec 8)
  | byte c => [c]
  | directive d => d.text

def text (items : List Item) : List (BitVec 8) := items.flatMap Item.text

/-- A byte that a format copies, and a width that is read as one: a `0` in front is a flag. -/
def Item.Proper : Item → Prop
  | byte c => c ≠ 0 ∧ c ≠ ch '%'
  | directive d => d.width ≠ .number 0

instance (x : Item) : Decidable x.Proper := by
  cases x
  · exact inferInstanceAs (Decidable (_ ∧ _))
  · exact inferInstanceAs (Decidable (_ ≠ _))

/-! ## What they are for -/

/-- The flags of a directive. -/
def Directive.flagWord (d : Directive) : U32 := addFlags 0 (d.flags.map Flag.char)

/-- The arguments of a width: what it is, and the flag that a negative one is. -/
inductive Width.Is : Width → List U32 → Int → U32 → List U32 → Prop
  | none (args : List U32) : Is none args (-1) 0 args
  | number {n : Nat} (hn : n ≤ 2 ^ 30) (args : List U32) : Is (number n) args n 0 args
  | star {v : U32} (hneg : v.toInt < 0) (hv : -2 ^ 30 ≤ v.toInt) (args : List U32) :
      Is star (v :: args) (-v.toInt) LEFT args

inductive Precision.Is : Precision → List U32 → Int → List U32 → Prop
  | none (args : List U32) : Is none args (-1) args
  | bare (args : List U32) : Is bare args 0 args
  | number {n : Nat} (hn : n ≤ 2 ^ 30) (args : List U32) : Is (number n) args n args
  | star {v : U32} (hv : v.toInt ≤ 2 ^ 30) (args : List U32) :
      Is star (v :: args) (max v.toInt 0) args

/-- The string at an address. -/
structure StringAt (mem : Bytes32) (a : U32) (bytes : List (BitVec 8)) : Prop where
  byte : ∀ (i : Nat) (h : i < bytes.length), mem (a + BitVec.ofNat 32 i) = bytes[i]
  noNul : 0 ∉ bytes
  nul : mem (a + BitVec.ofNat 32 bytes.length) = 0
  fits : bytes.length < 2 ^ 31

/-- Blanks bring the bytes to the width, on the right with `LEFT`. -/
def padded (flags : U32) (width : Int) (bytes : List (BitVec 8)) : List (BitVec 8) :=
  let blanks := List.replicate (width - bytes.length).toNat (ch ' ')
  if flags &&& LEFT = 0 then blanks ++ bytes else bytes ++ blanks

/-- The numbers that are printed, and how. -/
def Conversion.request (flags : U32) (width precision : Int) (v : U32) : Conversion → Option Request
  | o => some ⟨v, 8, width, precision, flags⟩
  | p =>
    if width = -1 then some ⟨v, 16, 8, precision, flags ||| ZEROPAD⟩
    else some ⟨v, 16, width, precision, flags⟩
  | x => some ⟨v, 16, width, precision, flags ||| SMALL⟩
  | X => some ⟨v, 16, width, precision, flags⟩
  | d => some ⟨v, 10, width, precision, flags ||| SIGN⟩
  | i => some ⟨v, 10, width, precision, flags ||| SIGN⟩
  | u => some ⟨v, 10, width, precision, flags⟩
  | _ => none

/-- All parts of a number in their order. -/
def numberText (r : Request) : List (BitVec 8) :=
  r.lead ++ r.sign ++ r.pre ++ (r.figures ++ r.trail)

/-- What a conversion puts, after `count` bytes of output. -/
inductive Conversion.Puts (mem : Bytes32) (count : Nat) (flags : U32) (width precision : Int) :
    Conversion → List U32 → Converted → Prop
  | char (v : U32) (args : List U32) :
      Puts mem count flags width precision .c (v :: args)
        ⟨padded flags width [v.setWidth 8], mem, args⟩
  | string {v : U32} {bytes : List (BitVec 8)} (h : StringAt mem v bytes) (args : List U32) :
      Puts mem count flags width precision .s (v :: args)
        ⟨padded flags width (if precision < 0 then bytes else bytes.take precision.toNat), mem,
          args⟩
  | number {k : Conversion} {v : U32} {r : Request} (h : k.request flags width precision v = some r)
      (args : List U32) :
      Puts mem count flags width precision k (v :: args) ⟨numberText r, mem, args⟩
  | count (v : U32) (args : List U32) :
      Puts mem count flags width precision .n (v :: args)
        ⟨[], writeWord mem v (BitVec.ofNat 32 count), args⟩
  | percent (args : List U32) :
      Puts mem count flags width precision .percent args ⟨[ch '%'], mem, args⟩

/-- What there is between two items. -/
structure Sheet where
  args : List U32
  out : List (BitVec 8)
  mem : Bytes32

inductive Item.Puts (t : Sheet) : Item → Sheet → Prop
  | byte (c : BitVec 8) : Puts t (.byte c) ⟨t.args, t.out ++ [c], t.mem⟩
  | directive {d : Directive} {width precision : Int} {left : U32} {args args' : List U32}
      {r : Converted} (hwidth : d.width.Is t.args width left args)
      (hprecision : d.precision.Is args precision args')
      (hput : d.conversion.Puts t.mem t.out.length (d.flagWord ||| left) width precision args' r) :
      Puts t (.directive d) ⟨r.args, t.out ++ r.put, r.mem⟩

/-! ## Reading a directive -/

theorem Flag.isFlag {f : Flag} : flagOf f.char ≠ none := by
  cases f
  all_goals decide

theorem flagText_flags (fl : List Flag) : ∀ c ∈ fl.map Flag.char, flagOf c ≠ none := by
  intro c hc
  obtain ⟨f, _, rfl⟩ := List.mem_map.mp hc
  exact f.isFlag

/-- A byte that belongs neither to flags nor to a width. -/
structure Past (c : BitVec 8) : Prop where
  digit : ¬ IsDigit c
  star : c ≠ ch '*'
  flag : flagOf c = none

theorem Conversion.past (k : Conversion) :
    Past k.char ∧ k.char ≠ ch '.' ∧ k.char ≠ 0 ∧
      ¬ (k.char = ch 'h' ∨ k.char = ch 'l' ∨ k.char = ch 'L') := by
  cases k
  all_goals exact ⟨⟨by decide, by decide, by decide⟩, by decide, by decide, by decide⟩

theorem Qualifier.past (q : Qualifier) :
    Past q.char ∧ q.char ≠ ch '.' ∧ (q.char = ch 'h' ∨ q.char = ch 'l' ∨ q.char = ch 'L') := by
  cases q
  all_goals exact ⟨⟨by decide, by decide, by decide⟩, by decide, by decide⟩

/-- A directive from its qualifier on. -/
def ending (q : Option Qualifier) (k : Conversion) (rest : List (BitVec 8)) : List (BitVec 8) :=
  (q.map Qualifier.char).toList ++ k.char :: rest

theorem ending_past (q : Option Qualifier) (k : Conversion) (rest : List (BitVec 8)) :
    Past (deref (ending q k rest)) ∧ deref (ending q k rest) ≠ ch '.' := by
  cases q with
  | none => exact ⟨k.past.1, k.past.2.1⟩
  | some q => exact ⟨q.past.1, q.past.2.1⟩

theorem precision_past (p : Precision) (q : Option Qualifier) (k : Conversion)
    (rest : List (BitVec 8)) : Past (deref (p.text ++ ending q k rest)) := by
  have hdot : Past (ch '.') := ⟨by decide, by decide, by decide⟩
  cases p with
  | none => exact (ending_past q k rest).1
  | bare => exact hdot
  | number n => exact hdot
  | star => exact hdot

theorem width_flag {w : Width} (hw : w ≠ .number 0) {post : List (BitVec 8)}
    (hpost : Past (deref post)) : flagOf (deref (w.text ++ post)) = none := by
  cases w with
  | none => exact hpost.flag
  | number n =>
    obtain ⟨c, ds, hds, hdigit, hhead⟩ := decimal_head n
    have hn : n ≠ 0 := fun hn => hw (by rw [hn])
    rw [Width.text, hds]
    exact flagOf_digit hdigit (hhead hn)
  | star => rfl

/-! ### Numbers -/

theorem Width.Is.bounds {w : Width} {args args' : List U32} {width : Int} {left : U32}
    (h : w.Is args width left args') : -1 ≤ width ∧ width ≤ 2 ^ 30 := by
  cases h with
  | none => omega
  | number hn => omega
  | star hneg hv => omega

theorem Precision.Is.bounds {p : Precision} {args args' : List U32} {precision : Int}
    (h : p.Is args precision args') : -1 ≤ precision ∧ precision ≤ 2 ^ 30 := by
  cases h with
  | none => omega
  | bare => omega
  | number hn => omega
  | star hv => omega

theorem toInt_ofInt {x : Int} (h : -1 ≤ x ∧ x ≤ 2 ^ 30) : (Int32.ofInt x).toInt = x :=
  Int32.toInt_ofInt_of_le (by omega) (by omega)

theorem scanWidth_text {w : Width} {args args' : List U32} {width : Int} {left : U32}
    (h : w.Is args width left args') {post : List (BitVec 8)} (hpost : Past (deref post))
    (flags : U32) :
    scanWidth ⟨w.text ++ post, args, flags, -1, -1⟩ =
      .ok ⟨post, args', flags ||| left, Int32.ofInt width, -1⟩ := by
  have hzero : flags ||| 0 = flags := BitVec.or_zero
  cases h with
  | none args =>
    have hd : deref (Width.none.text ++ post) = deref post := rfl
    rw [scanWidth, hd, if_neg hpost.digit, if_neg hpost.star, hzero]
    rfl
  | @number n hn args =>
    obtain ⟨c, ds, hds, hdigit, _⟩ := decimal_head n
    have hd : IsDigit (deref (decimal n ++ post)) := by
      rw [hds]
      exact hdigit
    have hread : skipAtoi (decimal n ++ post) 0 = (post, Int32.ofInt n) := by
      rw [skipAtoi_decimal, skipAtoi_of_not_digit hpost.digit, Int32.ofInt_eq_ofNat]
    rw [Width.text, scanWidth, if_pos hd, hread, hzero]
  | @star v hneg hv =>
    have hlt : Int32.ofBitVec v < 0 := Int32.lt_iff_toInt_lt.mpr hneg
    have hwidth : -Int32.ofBitVec v = Int32.ofInt (-v.toInt) := by
      rw [Int32.ofInt_neg]
      exact congrArg _ (Int32.ofInt_toInt (Int32.ofBitVec v)).symm
    show scanWidth ⟨ch '*' :: post, (Int32.ofBitVec v).toBitVec :: args', flags, -1, -1⟩ = _
    rw [scanWidth_star, if_pos hlt, hwidth]

theorem scanPrecision_text {p : Precision} {args args' : List U32} {precision : Int}
    (h : p.Is args precision args') {post : List (BitVec 8)} (hpost : Past (deref post))
    (hdot : deref post ≠ ch '.') (flags : U32) (width : Int32) :
    scanPrecision ⟨p.text ++ post, args, flags, width, -1⟩ =
      .ok ⟨post, args', flags, width, Int32.ofInt precision⟩ := by
  cases h with
  | none args =>
    have hd : deref (Precision.none.text ++ post) = deref post := rfl
    rw [scanPrecision, hd, if_neg hdot]
    rfl
  | bare args =>
    have hd : deref (Precision.bare.text ++ post) = ch '.' := rfl
    rw [scanPrecision, hd, if_pos rfl]
    show (scanDigits ⟨post, args, flags, width, -1⟩ >>= _) = _
    rw [scanDigits, if_neg hpost.digit, if_neg hpost.star]
    rfl
  | @number n hn args =>
    have hval : (Int32.ofNat n).toInt = n := Int32.toInt_ofNat_of_lt (by omega)
    have hnat : n = (Int32.ofNat n).toInt.toNat := by omega
    have hpos : ¬ Int32.ofNat n < 0 := fun hc => by
      have hc : (Int32.ofNat n).toInt < 0 := Int32.lt_iff_toInt_lt.mp hc
      omega
    have hread := scanPrecision_digits (Int32.ofNat n) hpost.digit args flags width
    rw [← hnat, if_neg hpos, ← Int32.ofInt_eq_ofNat] at hread
    exact hread
  | @star v hv =>
    have hread := scanPrecision_star (Int32.ofBitVec v) post args' flags width
    have hmax : (if Int32.ofBitVec v < 0 then 0 else Int32.ofBitVec v) =
        Int32.ofInt (max v.toInt 0) := by
      split
      · rename_i hneg
        have hneg : v.toInt < 0 := Int32.lt_iff_toInt_lt.mp hneg
        rw [max_eq_right (le_of_lt hneg)]
        rfl
      · rename_i hneg
        have hneg : ¬ v.toInt < 0 := fun hc => hneg (Int32.lt_iff_toInt_lt.mpr hc)
        rw [max_eq_left (not_lt.mp hneg)]
        exact (Int32.ofInt_toInt (Int32.ofBitVec v)).symm
    rw [hmax] at hread
    exact hread

theorem scanQualifier_text (q : Option Qualifier) (k : Conversion) (rest : List (BitVec 8))
    (args : List U32) (flags : U32) (width precision : Int32) :
    scanQualifier ⟨ending q k rest, args, flags, width, precision⟩ =
      .ok ⟨k.char :: rest, args, flags, width, precision⟩ := by
  cases q with
  | none => exact if_neg k.past.2.2.2
  | some q => exact if_pos q.past.2.2

/-- A directive is read up to its conversion. -/
theorem scan_text {d : Directive} (hd : d.width ≠ .number 0) {args args' args'' : List U32}
    {width precision : Int} {left : U32} (hw : d.width.Is args width left args')
    (hp : d.precision.Is args' precision args'') (rest : List (BitVec 8)) :
    scan (d.text ++ rest) args = .ok ⟨d.conversion.char :: rest, args'', d.flagWord ||| left,
      Int32.ofInt width, Int32.ofInt precision⟩ := by
  have htext : d.text ++ rest = ch '%' :: (d.flags.map Flag.char ++ (d.width.text ++
      (d.precision.text ++ ending d.qualifier d.conversion rest))) := by
    simp [Directive.text, ending]
  have hpost := precision_past d.precision d.qualifier d.conversion rest
  obtain ⟨hend, hdot⟩ := ending_past d.qualifier d.conversion rest
  rw [htext, scan_flags (flagText_flags d.flags) (width_flag hd hpost), scanRest,
    scanWidth_text hw hpost]
  show (scanPrecision _ >>= scanQualifier) = _
  rw [scanPrecision_text hp hend hdot]
  exact scanQualifier_text _ _ _ _ _ _ _

/-! ## Conversions -/

/-- What `number` puts. -/
theorem number_text {base : Int32} (hbase : 2 ≤ base.toInt) (hmax : base.toInt ≤ 36)
    {width precision : Int} (hw : -1 ≤ width ∧ width ≤ 2 ^ 30)
    (hp : -1 ≤ precision ∧ precision ≤ 2 ^ 30) (v flags : U32) :
    number v base (Int32.ofInt width) (Int32.ofInt precision) flags =
      some (numberText ⟨v, base.toInt.toNat, width, precision, flags⟩) := by
  have hknown : ¬ (base < 2 ∨ 36 < base) := by
    rw [Int32.lt_iff_toInt_lt, Int32.lt_iff_toInt_lt]
    show ¬ (base.toInt < 2 ∨ 36 < base.toInt)
    omega
  have hwidth := toInt_ofInt hw
  have hprecision := toInt_ofInt hp
  obtain ⟨r, hr⟩ : ∃ r : Request, r = ⟨v, base.toInt.toNat, width, precision, flags⟩ := ⟨_, rfl⟩
  have hrequest : requestOf v base (Int32.ofInt width) (Int32.ofInt precision) flags = r := by
    rw [requestOf, hwidth, hprecision, hr]
  have hleft := sizeLeft_toInt base (Int32.ofInt width) flags (signByte v flags) (by omega)
  rw [signByte_text v base (Int32.ofInt width) (Int32.ofInt precision) flags,
    specialText_eq v base (Int32.ofInt width) (Int32.ofInt precision) flags (by omega), hrequest,
    hwidth] at hleft
  have hcount := count_le v base (Int32.ofInt width) (Int32.ofInt precision) flags hbase
  rw [hrequest] at hcount
  have hrw : r.size = width := by rw [hr]
  have hrp : r.precision = precision := by rw [hr]
  have hrt : r.type = flags := by rw [hr]
  obtain ⟨hroom, hlow⟩ := room_toInt r (hrp.trans hprecision.symm) hcount (by rw [hleft, hrw])
    (by omega) (by omega) (by omega)
  have hparts := write_parts r (by rw [hroom]; exact hlow) (by rw [hroom, Request.pad])
  rw [number_eq v base (Int32.ofInt width) (Int32.ofInt precision) flags hknown, ← hr, numberText]
  dsimp only
  rw [signByte_clearPad, absNum_clearPad, specialText_clearPad, sizeLeft_clearPad,
    signByte_text v base (Int32.ofInt width) (Int32.ofInt precision) flags,
    specialText_eq v base (Int32.ofInt width) (Int32.ofInt precision) flags (by omega),
    tmp_numeral v base (Int32.ofInt width) (Int32.ofInt precision) flags hbase,
    tmp_length v base (Int32.ofInt width) (Int32.ofInt precision) flags hbase, hrequest,
    zeros_eq r (hrp.trans hprecision.symm) hcount, ← hrt]
  rw [← hrt] at hparts
  exact congrArg some hparts

section
variable {mem : Bytes32} {fmt : List (BitVec 8)} {args : List U32} {flags : U32}
  {width precision : Int} {v : U32}

theorem convertNumber_text (hw : -1 ≤ width ∧ width ≤ 2 ^ 30)
    (hp : -1 ≤ precision ∧ precision ≤ 2 ^ 30) {base : Int32} (hbase : 2 ≤ base.toInt)
    (hmax : base.toInt ≤ 36) :
    convertNumber mem ⟨fmt, v :: args, flags, Int32.ofInt width, Int32.ofInt precision⟩ base =
      .ok ⟨numberText ⟨v, base.toInt.toNat, width, precision, flags⟩, mem, args⟩ := by
  have hbytes := number_text hbase hmax hw hp v flags
  have harg : vaArg (v :: args) = .ok (v, args) := rfl
  have hbind : ∀ (x : U32 × List U32) (k : U32 × List U32 → Except FormatFault Converted),
      (Except.ok x >>= k) = k x := fun _ _ => rfl
  rw [convertNumber, harg, hbind]
  dsimp only
  rw [hbytes]

theorem whileAbove_nil (b : BitVec 8) {len size : Int32} (h : size.toInt ≤ len.toInt) :
    (whileAbove b len size).1 = [] := by
  rw [whileAbove, Int.toNat_of_nonpos (by omega)]
  rfl

/-- What the first loop leaves of the width is no more than the length. -/
theorem whileAbove_snd_le (b : BitVec 8) {len size : Int32} (h : -2 ^ 31 < size.toInt)
    (h' : -2 ^ 31 < len.toInt) : (whileAbove b len size).2.toInt ≤ len.toInt - 1 := by
  have hone : (1 : Int32).toInt = 1 := rfl
  have hlt := size.toInt_lt
  have hlt' := len.toInt_lt
  rw [whileAbove]
  dsimp only
  split
  · rw [toInt_sub_of_range (by omega) (by omega), hone]
  · rename_i hno
    have hno : ¬ len.toInt < size.toInt := fun hc => hno (Int32.lt_iff_toInt_lt.mpr hc)
    rw [toInt_sub_of_range (by omega) (by omega), hone]
    omega

/-- So of the two loops around a text one puts the blanks. -/
theorem whileAbove_sides (len : Int32) {size : Int32} (hsize : -2 ^ 31 < size.toInt)
    (flags : U32) (bytes : List (BitVec 8)) (hlen : len.toInt = bytes.length) :
    (if flags &&& LEFT = 0 then whileAbove (ch ' ') len size else ([], size)).1 ++ bytes ++
        (whileAbove (ch ' ') len
          (if flags &&& LEFT = 0 then whileAbove (ch ' ') len size else ([], size)).2).1 =
      padded flags size.toInt bytes := by
  rw [padded]
  by_cases hleft : flags &&& LEFT = 0
  · have hle : (whileAbove (ch ' ') len size).2.toInt ≤ len.toInt - 1 :=
      whileAbove_snd_le (ch ' ') hsize (by omega)
    have hnil : (whileAbove (ch ' ') len (whileAbove (ch ' ') len size).2).1 = [] :=
      whileAbove_nil (ch ' ') (by omega)
    rw [if_pos hleft, if_pos hleft, hnil, whileAbove, hlen, List.append_nil]
  · rw [if_neg hleft, if_neg hleft, whileAbove, hlen, List.nil_append]

/-- The loops around a character count down from one less. -/
theorem whileStillPositive_above {size : Int32} (b : BitVec 8) (h : -2 ^ 31 < size.toInt) :
    whileStillPositive b size = whileAbove b 1 size := by
  have hone : (1 : Int32).toInt = 1 := rfl
  have hlt := size.toInt_lt
  have hsub : (size - 1).toInt = size.toInt - 1 := by
    rw [toInt_sub_of_range (by omega) (by omega), hone]
  have hpos : 0 < size - 1 ↔ 1 < size := by
    rw [Int32.lt_iff_toInt_lt, Int32.lt_iff_toInt_lt, hsub, hone]
    show 0 < size.toInt - 1 ↔ _
    omega
  rw [whileStillPositive, whileAbove, hsub, hone]
  by_cases hlt : 1 < size
  · rw [if_pos hlt, if_pos (hpos.mpr hlt)]
    rfl
  · rw [if_neg hlt, if_neg fun hc => hlt (hpos.mp hc)]

theorem convertChar_text (hw : -1 ≤ width ∧ width ≤ 2 ^ 30) (precision : Int32) :
    convertChar mem ⟨fmt, v :: args, flags, Int32.ofInt width, precision⟩ =
      .ok ⟨padded flags width [v.setWidth 8], mem, args⟩ := by
  have hone : (1 : Int32).toInt = 1 := rfl
  have hwidth := toInt_ofInt hw
  obtain ⟨size, hsize⟩ : ∃ size, size = Int32.ofInt width := ⟨_, rfl⟩
  rw [← hsize] at hwidth
  have hlow : -2 ^ 31 < size.toInt := by omega
  have hsides := whileAbove_sides 1 hlow flags [v.setWidth 8] rfl
  rw [← hsize, ← hwidth, ← hsides, convertChar]
  dsimp only
  rw [whileStillPositive_above (ch ' ') (by omega)]
  by_cases hleft : flags &&& LEFT = 0
  · have hnext : -2 ^ 31 < (whileAbove (ch ' ') 1 size).2.toInt := by
      rw [whileAbove]
      dsimp only
      split
      · decide
      · rw [toInt_sub_of_range (by omega) (by omega), hone]
        omega
    rw [if_pos hleft, ← whileStillPositive_above (ch ' ') hnext, List.append_assoc]
    rfl
  · have hnext : -2 ^ 31 < size.toInt := by omega
    rw [if_neg hleft, ← whileStillPositive_above (ch ' ') hnext, List.append_assoc]
    rfl

/-! ### Strings -/

/-- The scan stops at the NUL. -/
theorem repneScasb_string {mem : Bytes32} {n : Nat} {a : U32}
    (hnul : mem (a + BitVec.ofNat 32 n) = 0)
    (hbytes : ∀ i < n, mem (a + BitVec.ofNat 32 i) ≠ 0) {ecx : Nat} (hecx : n < ecx) :
    repneScasb mem ecx a = ecx - (n + 1) := by
  induction n generalizing a ecx with
  | zero =>
    obtain ⟨ecx, rfl⟩ := Nat.exists_eq_add_of_lt hecx
    have hzero : a + BitVec.ofNat 32 0 = a := BitVec.add_zero a
    rw [hzero] at hnul
    rw [Nat.zero_add, repneScasb, if_pos hnul]
    rfl
  | succ n ih =>
    obtain ⟨ecx, rfl⟩ : ∃ k, ecx = k + 1 := ⟨ecx - 1, by omega⟩
    have hfirst : mem a ≠ 0 := by
      have := hbytes 0 (Nat.succ_pos n)
      rwa [show a + BitVec.ofNat 32 0 = a from BitVec.add_zero a] at this
    have hshift : ∀ i, a + 1 + BitVec.ofNat 32 i = a + BitVec.ofNat 32 (i + 1) := by
      intro i
      rw [BitVec.add_assoc, BitVec.ofNat_add, BitVec.add_comm (BitVec.ofNat 32 i)]
      rfl
    rw [repneScasb, if_neg hfirst, ih (by rw [hshift]; exact hnul)
      (fun i hi => by rw [hshift]; exact hbytes (i + 1) (by omega)) (by omega)]
    omega

theorem strlen_string {a : U32} {bytes : List (BitVec 8)} (h : StringAt mem a bytes) :
    (strlen mem a).toInt = bytes.length := by
  have hfits := h.fits
  have hbytes : ∀ i < bytes.length, mem (a + BitVec.ofNat 32 i) ≠ 0 := by
    intro i hi hc
    apply h.noNul
    rw [← hc, h.byte i hi]
    exact List.getElem_mem hi
  rw [strlen, repneScasb_string h.nul hbytes (by omega), Int32.toInt_ofBitVec]
  have hnot : ~~~ BitVec.ofNat 32 (0xFFFFFFFF - (bytes.length + 1)) - 1 =
      BitVec.ofNat 32 bytes.length := by
    apply BitVec.eq_of_toNat_eq
    rw [BitVec.toNat_sub, BitVec.toNat_not, BitVec.toNat_ofNat, BitVec.toNat_ofNat]
    show (2 ^ 32 - 1 + _) % 2 ^ 32 = _
    omega
  rw [hnot, BitVec.toInt_ofNat']
  exact Int.bmod_eq_of_le (by omega) (by omega)

theorem StringAt.take {a : U32} {bytes : List (BitVec 8)} (h : StringAt mem a bytes) {n : Nat}
    (hn : n ≤ bytes.length) :
    ((List.range n).map fun i => mem (a + BitVec.ofNat 32 i)) = bytes.take n := by
  apply List.ext_getElem
  · simp [hn]
  · intro i hi hi'
    rw [List.length_map, List.length_range] at hi
    rw [List.getElem_map, List.getElem_range, List.getElem_take, h.byte i (by omega)]

theorem convertString_text (hw : -1 ≤ width ∧ width ≤ 2 ^ 30)
    (hp : -1 ≤ precision ∧ precision ≤ 2 ^ 30) {bytes : List (BitVec 8)}
    (h : StringAt mem v bytes) :
    convertString mem ⟨fmt, v :: args, flags, Int32.ofInt width, Int32.ofInt precision⟩ =
      .ok ⟨padded flags width (if precision < 0 then bytes else bytes.take precision.toNat), mem,
        args⟩ := by
  have hwidth := toInt_ofInt hw
  have hprecision := toInt_ofInt hp
  have hlen := strlen_string h
  obtain ⟨size, hsize⟩ : ∃ size, size = Int32.ofInt width := ⟨_, rfl⟩
  obtain ⟨p, hpv⟩ : ∃ p, p = Int32.ofInt precision := ⟨_, rfl⟩
  rw [← hsize] at hwidth ⊢
  rw [← hpv] at hprecision ⊢
  obtain ⟨len, hlenv⟩ : ∃ len, len =
      if p < 0 then strlen mem v else if p < strlen mem v then p else strlen mem v := ⟨_, rfl⟩
  obtain ⟨shown, hshown⟩ : ∃ shown, shown =
      if precision < 0 then bytes else bytes.take precision.toNat := ⟨_, rfl⟩
  have hneg : p < 0 ↔ precision < 0 := by
    rw [Int32.lt_iff_toInt_lt, hprecision]
    rfl
  have hcut : len.toInt = shown.length ∧ len.toInt.toNat ≤ bytes.length ∧
      shown = bytes.take len.toInt.toNat := by
    rw [hlenv, hshown]
    by_cases hnone : precision < 0
    · rw [if_pos (hneg.mpr hnone), if_pos hnone, hlen]
      exact ⟨rfl, le_refl _, List.take_length.symm⟩
    · rw [if_neg fun hc => hnone (hneg.mp hc), if_neg hnone, List.length_take]
      split
      · rename_i hlt
        have hlt := Int32.lt_iff_toInt_lt.mp hlt
        rw [hprecision] at hlt ⊢
        exact ⟨by omega, by omega, rfl⟩
      · rename_i hlt
        have hlt : ¬ p.toInt < (strlen mem v).toInt := fun hc => hlt (Int32.lt_iff_toInt_lt.mpr hc)
        rw [hlen]
        refine ⟨by omega, le_refl _, ?_⟩
        rw [List.take_of_length_le (by omega), List.take_of_length_le (by omega)]
  obtain ⟨hlength, hle, htake⟩ := hcut
  have hlow : -2 ^ 31 < size.toInt := by omega
  have hsides := whileAbove_sides len hlow flags shown hlength
  have hbytes := h.take hle
  rw [← htake] at hbytes
  rw [← hshown, ← hwidth, ← hsides, ← hbytes, hlenv]
  rfl

end

/-- Every conversion puts what it is for. -/
theorem convert_text {mem : Bytes32} {count : Nat} {k : Conversion} {args : List U32}
    {r : Converted} {flags : U32} {width precision : Int} (hw : -1 ≤ width ∧ width ≤ 2 ^ 30)
    (hp : -1 ≤ precision ∧ precision ≤ 2 ^ 30)
    (h : k.Puts mem count flags width precision args r) (rest : List (BitVec 8)) :
    convert mem ⟨k.char :: rest, args, flags, Int32.ofInt width, Int32.ofInt precision⟩ count =
      .ok r := by
  cases h with
  | char v args => exact convertChar_text hw _
  | string hs args => exact convertString_text hw hp hs
  | @number _ v r' hr args =>
    have hten : 2 ≤ (10 : Int32).toInt ∧ (10 : Int32).toInt ≤ 36 := by decide
    have hsixteen : 2 ≤ (16 : Int32).toInt ∧ (16 : Int32).toInt ≤ 36 := by decide
    cases k with
    | o =>
      have height : 2 ≤ (8 : Int32).toInt ∧ (8 : Int32).toInt ≤ 36 := by decide
      cases hr
      exact convertNumber_text hw hp height.1 height.2
    | p =>
      have hwidth := toInt_ofInt hw
      have hnone : Int32.ofInt width = -1 ↔ width = -1 := by
        rw [← Int32.toInt_inj, hwidth]
        rfl
      show (if Int32.ofInt width = -1 then convertNumber mem
        ⟨ch 'p' :: rest, v :: args, flags ||| ZEROPAD, 8, Int32.ofInt precision⟩ 16
        else convertNumber mem
          ⟨ch 'p' :: rest, v :: args, flags, Int32.ofInt width, Int32.ofInt precision⟩ 16) = _
      rw [Conversion.request] at hr
      by_cases hdefault : width = -1
      · rw [if_pos hdefault] at hr
        cases hr
        rw [if_pos (hnone.mpr hdefault)]
        have height : -1 ≤ (8 : Int) ∧ (8 : Int) ≤ 2 ^ 30 := by omega
        exact convertNumber_text height hp hsixteen.1 hsixteen.2
      · rw [if_neg hdefault] at hr
        cases hr
        rw [if_neg fun hc => hdefault (hnone.mp hc)]
        exact convertNumber_text hw hp hsixteen.1 hsixteen.2
    | x =>
      cases hr
      exact convertNumber_text hw hp hsixteen.1 hsixteen.2
    | X =>
      cases hr
      exact convertNumber_text hw hp hsixteen.1 hsixteen.2
    | d =>
      cases hr
      exact convertNumber_text hw hp hten.1 hten.2
    | i =>
      cases hr
      exact convertNumber_text hw hp hten.1 hten.2
    | u =>
      cases hr
      exact convertNumber_text hw hp hten.1 hten.2
    | c => cases hr
    | s => cases hr
    | n => cases hr
    | percent => cases hr
  | count v args => rfl
  | percent args => rfl

/-! ## Turns and the whole format -/

/-- A turn does what its item is for. -/
theorem turn_text {x : Item} {t t' : Sheet} (hx : x.Proper) (h : x.Puts t t')
    (rest : List (BitVec 8)) :
    turn ⟨x.text ++ rest, t.args, t.out, t.mem⟩ = .ok ⟨rest, t'.args, t'.out, t'.mem⟩ := by
  cases h with
  | byte c => exact if_pos hx.2
  | @directive d width precision left args args' r hwidth hprecision hput =>
    have hscan := scan_text hx hwidth hprecision rest
    have hconv := convert_text hwidth.bounds hprecision.bounds hput rest
    have hpercent : ¬ deref (d.text ++ rest) ≠ ch '%' := fun hne => hne rfl
    rw [Item.text, turn, if_neg hpercent, hscan]
    show (convert t.mem _ t.out.length >>= _) = _
    rw [hconv]
    exact if_neg d.conversion.past.2.2.1

theorem decimal_no_nul (n : Nat) : 0 ∉ decimal n := digits_no_nul (decimal_isDigit n)

theorem Directive.text_no_nul (d : Directive) : 0 ∉ d.text := by
  have hpercent : (0 : BitVec 8) ≠ ch '%' := by decide
  have hdot : (0 : BitVec 8) ≠ ch '.' := by decide
  have hstar : (0 : BitVec 8) ≠ ch '*' := by decide
  have hqual : ∀ q : Qualifier, 0 ≠ q.char := fun q => by cases q <;> decide
  have hwidth : 0 ∉ d.width.text := by
    cases d.width with
    | none => exact List.not_mem_nil
    | number n => exact decimal_no_nul n
    | star => exact fun hc => hstar (List.mem_singleton.mp hc)
  have hprecision : 0 ∉ d.precision.text := by
    cases d.precision with
    | none => exact List.not_mem_nil
    | bare => exact fun hc => hdot (List.mem_singleton.mp hc)
    | number n => exact fun hc => (List.mem_cons.mp hc).elim hdot (decimal_no_nul n)
    | star =>
      exact fun hc => (List.mem_cons.mp hc).elim hdot fun hc => hstar (List.mem_singleton.mp hc)
  have hqualifier : 0 ∉ (d.qualifier.map Qualifier.char).toList := by
    cases d.qualifier with
    | none => exact List.not_mem_nil
    | some q => exact fun hc => hqual q (List.mem_singleton.mp hc)
  have hflags := flags_no_nul (flagText_flags d.flags)
  simp only [text, List.mem_cons, List.mem_append, List.not_mem_nil, or_false, not_or]
  exact ⟨hpercent, hflags, hwidth, hprecision, hqualifier, d.conversion.past.2.2.1.symm⟩

theorem Item.text_no_nul {x : Item} (h : x.Proper) : 0 ∉ x.text := by
  cases x with
  | byte c => exact fun hc => h.1 (List.mem_singleton.mp hc).symm
  | directive d => exact d.text_no_nul

theorem text_no_nul {items : List Item} (h : ∀ x ∈ items, x.Proper) : 0 ∉ text items := by
  intro hmem
  obtain ⟨x, hx, hzero⟩ := List.mem_flatMap.mp hmem
  exact x.text_no_nul (h x hx) hzero

/-- What happens from one item to the next. -/
def Puts (t : Sheet) (x : Item) (t' : Sheet) : Prop := x.Puts t t'

/-- The outer loop takes a turn for each item. -/
theorem turns_of_run {items : List Item} {t t' : Sheet} (hrun : Run Puts t items t')
    (hitems : ∀ x ∈ items, x.Proper) {rest : List (BitVec 8)} (hrest : 0 ∉ rest) :
    ∃ ts, Run Turns ⟨text items ++ rest, t.args, t.out, t.mem⟩ ts
      ⟨rest, t'.args, t'.out, t'.mem⟩ := by
  induction hrun generalizing rest with
  | nil => exact ⟨[], Run.nil⟩
  | @snoc items u u' x _ hx ih =>
    have hproper : x.Proper := hitems x (List.mem_append_right items List.mem_cons_self)
    have hnul : 0 ∉ x.text ++ rest := fun hc =>
      (List.mem_append.mp hc).elim (x.text_no_nul hproper) hrest
    obtain ⟨ts, hts⟩ := ih (fun y hy => hitems y (List.mem_append_left [x] hy)) hnul
    have htext : text (items ++ [x]) ++ rest = text items ++ (x.text ++ rest) := by
      simp [text]
    obtain ⟨c, cs, hc⟩ : ∃ c cs, x.text ++ rest = c :: cs := by
      cases x with
      | byte c => exact ⟨c, rest, rfl⟩
      | directive d => exact ⟨_, _, rfl⟩
    have hturn := turn_text hproper hx rest
    have hends := turn_ends (p := ⟨x.text ++ rest, u.args, u.out, u.mem⟩) hc hnul
    rw [hturn] at hends
    obtain ⟨⟨t, ht⟩, -⟩ := hends
    rw [htext]
    exact ⟨ts ++ [t], hts.snoc ht⟩

/-- The loop goes through the text of a format and puts what its items are for. -/
theorem printLoop_text {items : List Item} (hitems : ∀ x ∈ items, x.Proper) {mem mem' : Bytes32}
    {args args' : List U32} {out : List (BitVec 8)}
    (hrun : Run Puts ⟨args, [], mem⟩ items ⟨args', out, mem'⟩) :
    printLoop (text items).length ⟨text items, args, [], mem⟩ = .ok ⟨[], args', out, mem'⟩ := by
  have hnil : (0 : BitVec 8) ∉ [] := List.not_mem_nil
  obtain ⟨ts, hts⟩ := turns_of_run hrun hitems hnil
  rw [List.append_nil] at hts
  obtain ⟨_, _, hlen⟩ := run_pieces hts
  have hlen : ts.length ≤ (text items).length := hlen
  obtain ⟨n, hn⟩ := Nat.exists_eq_add_of_le hlen
  rw [hn, printLoop_run hts (text_no_nul hitems)]
  exact printLoop_done rfl n

/-- `vsprintf` of the text of a format puts what its items are for, one after the other, and a
NUL; it returns their length, and leaves the arguments that they leave. -/
theorem vsprintf_text {items : List Item} (hitems : ∀ x ∈ items, x.Proper) {mem mem' : Bytes32}
    {args args' : List U32} {out : List (BitVec 8)}
    (hrun : Run Puts ⟨args, [], mem⟩ items ⟨args', out, mem'⟩) :
    vsprintf mem (text items) args = .ok ⟨out ++ [0], Int32.ofNat out.length, args', mem'⟩ := by
  rw [vsprintf, printLoop_text hitems hrun]
  rfl

/-- `x=%-#6lx%.*s` -/
def sample : List Item :=
  [.byte (ch 'x'), .byte (ch '='), .directive ⟨[.minus, .sharp], .number 6, .none, some .l, .x⟩,
    .directive ⟨[], .none, .star, none, .s⟩]

/-- A memory with the string `ab`. -/
def sampleMem : Bytes32 := fun a =>
  if a = 0x1000 then ch 'a' else if a = 0x1001 then ch 'b' else 0

theorem vsprintf_text_sample :
    vsprintf sampleMem (text sample) [0x2A, 1, 0x1000] =
      .ok ⟨[ch 'x', ch '='] ++ numberText ⟨0x2A, 16, 6, -1, LEFT ||| SPECIAL ||| SMALL⟩ ++
        [ch 'a'] ++ [0], Int32.ofNat ([ch 'x', ch '='] ++
          numberText ⟨0x2A, 16, 6, -1, LEFT ||| SPECIAL ||| SMALL⟩ ++ [ch 'a']).length, [],
        sampleMem⟩ := by
  have hstring : StringAt sampleMem 0x1000 [ch 'a', ch 'b'] :=
    ⟨by decide, by decide, by decide, by decide⟩
  obtain ⟨out, hout⟩ : ∃ out, out = [ch 'x', ch '='] ++
      numberText ⟨0x2A, 16, 6, -1, LEFT ||| SPECIAL ||| SMALL⟩ := ⟨_, rfl⟩
  have hnumber : Puts ⟨[0x2A, 1, 0x1000], [ch 'x', ch '='], sampleMem⟩
      (.directive ⟨[.minus, .sharp], .number 6, .none, some .l, .x⟩)
      ⟨[1, 0x1000], out, sampleMem⟩ := by
    rw [hout]
    exact .directive (.number (by decide) _) (.none _) (.number rfl _)
  have hput : Conversion.Puts sampleMem out.length 0 (-1) 1 .s [0x1000]
      ⟨[ch 'a'], sampleMem, []⟩ := .string hstring []
  have hcut : Puts ⟨[1, 0x1000], out, sampleMem⟩
      (.directive ⟨[], .none, .star, none, .s⟩) ⟨[], out ++ [ch 'a'], sampleMem⟩ :=
    Item.Puts.directive (t := ⟨[1, 0x1000], out, sampleMem⟩)
      (d := ⟨[], .none, .star, none, .s⟩) (r := ⟨[ch 'a'], sampleMem, []⟩) (.none _)
      (.star (v := 1) (by decide) _) hput
  rw [← hout]
  have hproper : ∀ x ∈ sample, x.Proper := by decide
  exact vsprintf_text hproper (((Run.single (.byte _)).snoc (.byte _)).snoc hnumber |>.snoc hcut)

end Format
end Kernel
end CherryOS
