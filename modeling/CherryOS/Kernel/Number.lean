import CherryOS.Kernel.Vsprintf
import CherryOS.Lib.Numeral

/-!
# What number prints

`number` counts its width and its precision down in six loops.  A `Request` is what it is
called with, and says what should be printed: the sign and the prefix that are due, the
numeral, and the padding that brings them to the width.
-/

namespace CherryOS
namespace Kernel

open Lib

/-! ## The digits -/

/-- The digit that a byte stands for, in either case. -/
def digitValue (c : BitVec 8) : Option Nat :=
  if IsDigit c then some (c - ch '0').toNat
  else if ch 'A' ≤ c ∧ c ≤ ch 'Z' then some (10 + (c - ch 'A').toNat)
  else if ch 'a' ≤ c ∧ c ≤ ch 'z' then some (10 + (c - ch 'a').toNat)
  else none

theorem digitValue_digitChar (small : Bool) {d : Nat} (hd : d < 36) :
    digitValue (digitChar small d) = some d := by
  have hall : ∀ small, ∀ d : Fin 36, digitValue (digitChar small d) = some d.val := by decide
  exact hall small ⟨d, hd⟩

/-- The table `digits`. -/
def digits (small : Bool) : Alphabet (BitVec 8) where
  size := 36
  write := digitChar small
  read := digitValue
  read_write _ hd := digitValue_digitChar small hd

theorem digitChar_zero (small : Bool) : digitChar small 0 = ch '0' := by
  rw [digitChar, if_pos (by decide)]
  rfl

/-- 32 turns are enough for a word. -/
theorem divLoop_eq (small : Bool) {base : Nat} (hbase : 1 < base) {fuel n : Nat}
    (hn : n < base ^ fuel) : divLoop small base fuel n = (base.digits n).map (digitChar small) := by
  induction fuel generalizing n with
  | zero =>
    have hzero : n = 0 := by
      rw [Nat.pow_zero] at hn
      omega
    rw [hzero, Nat.digits_zero]
    rfl
  | succ fuel ih =>
    rw [divLoop]
    by_cases hzero : n = 0
    · rw [if_pos hzero, hzero, Nat.digits_zero]
      rfl
    · have hdiv : n / base < base ^ fuel := by
        rw [Nat.div_lt_iff_lt_mul (by omega), ← Nat.pow_succ]
        exact hn
      rw [if_neg hzero, Nat.digits_def' hbase (Nat.pos_of_ne_zero hzero), List.map_cons, ih hdiv]

/-- What is in `tmp`. -/
def tmp (small : Bool) (base : Int32) (num : U32) : List (BitVec 8) :=
  if num = 0 then [ch '0'] else divLoop small base.toInt.toNat 32 num.toNat

theorem tmp_reverse (small : Bool) {base : Int32} (hbase : 2 ≤ base.toInt) (num : U32) :
    (tmp small base num).reverse = (digits small).numeral base.toInt.toNat num.toNat := by
  rw [tmp, Alphabet.numeral]
  by_cases hzero : num = 0
  · rw [if_pos hzero, hzero, if_pos (show (0 : U32).toNat = 0 from rfl)]
    show [ch '0'] = [digitChar small 0]
    rw [digitChar_zero]
  · have hne : num.toNat ≠ 0 := fun h => hzero (BitVec.eq_of_toNat_eq h)
    have hlt : num.toNat < base.toInt.toNat ^ 32 := by
      calc num.toNat < 2 ^ 32 := num.isLt
        _ ≤ base.toInt.toNat ^ 32 := Nat.pow_le_pow_left (by omega) 32
    rw [if_neg hzero, if_neg hne, divLoop_eq small (by omega) hlt, List.map_reverse]
    rfl

/-- No word has more than 32 digits. -/
theorem log_lt {base n : Nat} (hbase : 2 ≤ base) (hn : n < 2 ^ 32) : Nat.log base n < 32 := by
  apply Nat.log_lt_of_lt_pow' (by decide)
  calc n < 2 ^ 32 := hn
    _ ≤ base ^ 32 := Nat.pow_le_pow_left hbase 32

/-! ## The parts of the function -/

/-- `if (type&LEFT) type &= ~ZEROPAD;` -/
def clearPad (type : U32) : U32 := if type &&& LEFT ≠ 0 then type &&& ~~~ZEROPAD else type

/-- The byte in `sign`. -/
def signByte (num type : U32) : BitVec 8 :=
  if type &&& SIGN ≠ 0 ∧ num.toInt < 0 then ch '-'
  else if type &&& PLUS ≠ 0 then ch '+'
  else if type &&& SPACE ≠ 0 then ch ' '
  else 0

/-- `num` when its digits are taken. -/
def absNum (num type : U32) : U32 := if type &&& SIGN ≠ 0 ∧ num.toInt < 0 then -num else num

def specialText (small : Bool) (base : Int32) (type : U32) : List (BitVec 8) :=
  if type &&& SPECIAL ≠ 0 then
    if base = 8 then [ch '0']
    else if base = 16 then [ch '0', digitChar small 33]
    else []
  else []

/-- `size` after the sign and the prefix. -/
def sizeLeft (size base : Int32) (sign : BitVec 8) (type : U32) : Int32 :=
  let size := if sign ≠ 0 then size - 1 else size
  if type &&& SPECIAL ≠ 0 then
    if base = 16 then size - 2 else if base = 8 then size - 1 else size
  else size

/-- The loops that write, with `size` as it is before the first of them. -/
def write (type : U32) (size : Int32) (sign special zeros digits : List (BitVec 8)) :
    List (BitVec 8) :=
  let c := if type &&& ZEROPAD ≠ 0 then ch '0' else ch ' '
  let (blanks, size) :=
    if type &&& (ZEROPAD + LEFT) = 0 then whilePositive (ch ' ') size else ([], size)
  let (padding, size) := if type &&& LEFT = 0 then whilePositive c size else ([], size)
  let trail := (whilePositive (ch ' ') size).1
  blanks ++ sign ++ special ++ padding ++ zeros ++ digits ++ trail

section
variable (num : U32) (base size precision : Int32) (type : U32)

/-- `number` is its parts. -/
theorem number_eq (hbase : ¬ (base < 2 ∨ 36 < base)) :
    number num base size precision type =
      let small := decide (type &&& SMALL ≠ 0)
      let type := clearPad type
      let sign := signByte num type
      let text := tmp small base (absNum num type)
      let i := Int32.ofNat text.length
      let precision := if precision < i then i else precision
      some (write type (sizeLeft size base sign type - precision) (if sign ≠ 0 then [sign] else [])
        (specialText small base type) (whileAbove (ch '0') i precision).1 text.reverse) := by
  rw [number]
  dsimp only
  rw [if_neg hbase]
  rfl

end

/-! ## The loops -/

theorem whilePositive_snd (b : BitVec 8) (size : Int32) (h : -2 ^ 31 < size.toInt) :
    (whilePositive b size).2.toInt = min size.toInt 0 - 1 := by
  have hlt := size.toInt_lt
  have hone : (1 : Int32).toInt = 1 := rfl
  have hzero : (0 : Int32).toInt = 0 := rfl
  rw [whilePositive]
  dsimp only
  by_cases hpos : 0 < size
  · have hpos' : 0 < size.toInt := Int32.lt_iff_toInt_lt.mp hpos
    rw [if_pos hpos, min_eq_right (by omega)]
    rfl
  · have hpos' : ¬ 0 < size.toInt := fun hc => hpos (Int32.lt_iff_toInt_lt.mpr hc)
    rw [if_neg hpos, min_eq_left (by omega), toInt_sub_of_range (by omega) (by omega), hone]

theorem whilePositive_nil (b : BitVec 8) (size : Int32) (h : size.toInt ≤ 0) :
    (whilePositive b size).1 = [] := by
  rw [whilePositive, Int.toNat_of_nonpos h]
  rfl

section
variable {type : U32} {size : Int32} (sign special zeros digits : List (BitVec 8))

theorem zeropad_add_left :
    type &&& (ZEROPAD + LEFT) = 0 ↔ type &&& ZEROPAD = 0 ∧ type &&& LEFT = 0 := by
  have hor : ZEROPAD + LEFT = ZEROPAD ||| LEFT := by decide
  rw [hor, BitVec.and_or_distrib_left]
  exact BitVec.or_eq_zero_iff

/-- With `LEFT` the padding comes last. -/
theorem write_left (h : type &&& LEFT ≠ 0) :
    write type size sign special zeros digits =
      sign ++ special ++ zeros ++ digits ++ List.replicate size.toInt.toNat (ch ' ') := by
  have hboth : ¬ type &&& (ZEROPAD + LEFT) = 0 := fun hc => h (zeropad_add_left.mp hc).2
  rw [write, if_neg hboth]
  dsimp only
  rw [if_neg h]
  simp [whilePositive]

/-- With `ZEROPAD` alone zeros come after the sign and the prefix. -/
theorem write_zeropad (h : type &&& LEFT = 0) (hpad : type &&& ZEROPAD ≠ 0)
    (hsize : -2 ^ 31 < size.toInt) :
    write type size sign special zeros digits =
      sign ++ special ++ List.replicate size.toInt.toNat (ch '0') ++ zeros ++ digits := by
  have hboth : ¬ type &&& (ZEROPAD + LEFT) = 0 := fun hc => hpad (zeropad_add_left.mp hc).1
  have hnext := whilePositive_snd (ch '0') size hsize
  have hlast := whilePositive_nil (ch ' ') (whilePositive (ch '0') size).2 (by omega)
  rw [write, if_neg hboth]
  dsimp only
  rw [if_pos h, if_pos hpad, hlast]
  simp [whilePositive]

/-- With neither blanks come first. -/
theorem write_blanks (h : type &&& LEFT = 0) (hpad : type &&& ZEROPAD = 0)
    (hsize : -2 ^ 31 + 1 < size.toInt) :
    write type size sign special zeros digits =
      List.replicate size.toInt.toNat (ch ' ') ++ sign ++ special ++ zeros ++ digits := by
  have hboth : type &&& (ZEROPAD + LEFT) = 0 := zeropad_add_left.mpr ⟨hpad, h⟩
  obtain ⟨next, hnext⟩ : ∃ next, next = (whilePositive (ch ' ') size).2 := ⟨_, rfl⟩
  have hsnd := whilePositive_snd (ch ' ') size (by omega)
  rw [← hnext] at hsnd
  have hsnd' := whilePositive_snd (ch ' ') next (by omega)
  have hmid := whilePositive_nil (ch ' ') next (by omega)
  have hlast := whilePositive_nil (ch ' ') (whilePositive (ch ' ') next).2 (by omega)
  rw [write, if_pos hboth]
  dsimp only
  rw [if_pos h, if_neg (not_not.mpr hpad), ← hnext, hmid, hlast]
  simp [whilePositive]

end

/-! ## What should be printed -/

/-- The arguments of `number`, as numbers. -/
structure Request where
  num : U32
  base : Nat
  size : Int
  precision : Int
  type : U32

namespace Request

section
variable (r : Request)

def small : Bool := decide (r.type &&& SMALL ≠ 0)

def Negative : Prop := r.type &&& SIGN ≠ 0 ∧ r.num.toInt < 0

instance : Decidable r.Negative := inferInstanceAs (Decidable (_ ∧ _))

/-- The absolute value of a negative number, of any other the number as it is. -/
def value : Nat := if r.Negative then r.num.toInt.natAbs else r.num.toNat

def sign : List (BitVec 8) :=
  if r.Negative then [ch '-']
  else if r.type &&& PLUS ≠ 0 then [ch '+']
  else if r.type &&& SPACE ≠ 0 then [ch ' ']
  else []

/-- The prefix. -/
def pre : List (BitVec 8) :=
  if r.type &&& SPECIAL = 0 then []
  else if r.base = 16 then [ch '0', if r.small then ch 'x' else ch 'X']
  else if r.base = 8 then [ch '0']
  else []

/-- The number of digits, which is 1 for 0. -/
def count : Nat := Nat.log r.base r.value + 1

/-- The number of characters without padding. -/
def least : Int := r.sign.length + r.pre.length + max (r.count : Int) r.precision

def pad : Nat := (r.size - r.least).toNat

/-- Blanks before the sign. -/
def lead : List (BitVec 8) :=
  if r.type &&& LEFT = 0 ∧ r.type &&& ZEROPAD = 0 then List.replicate r.pad (ch ' ') else []

/-- Zeros for padding and for the precision, and the digits. -/
def figures : List (BitVec 8) :=
  (if r.type &&& LEFT = 0 ∧ r.type &&& ZEROPAD ≠ 0 then List.replicate r.pad (ch '0') else []) ++
    List.replicate (r.precision - r.count).toNat (ch '0') ++
      (digits r.small).numeral r.base r.value

def trail : List (BitVec 8) :=
  if r.type &&& LEFT ≠ 0 then List.replicate r.pad (ch ' ') else []

end

/-- The bytes are the parts in their order, as many as the width and the parts ask for, and
what stands after the sign and the prefix is a numeral of the value. -/
structure Prints (r : Request) (bytes : List (BitVec 8)) : Prop where
  order : bytes = r.lead ++ r.sign ++ r.pre ++ (r.figures ++ r.trail)
  length : (bytes.length : Int) = max r.size r.least
  value :
    (digits r.small).value r.base ((r.figures ++ r.trail).filter (· ≠ ch ' ')) = some r.value

variable {r : Request}

theorem figures_eq : ∃ k : Nat, (k : Int) + r.count = max (r.count : Int) r.precision +
      (if r.type &&& LEFT = 0 ∧ r.type &&& ZEROPAD ≠ 0 then r.pad else 0 : Nat) ∧
    r.figures = List.replicate k (ch '0') ++ (digits r.small).numeral r.base r.value := by
  rw [figures]
  split
  · refine ⟨r.pad + (r.precision - r.count).toNat, by omega, ?_⟩
    rw [List.replicate_add]
  · exact ⟨(r.precision - r.count).toNat, by omega, rfl⟩

theorem figures_not_blank (hbase : 1 < r.base) (hmax : r.base ≤ 36) {c : BitVec 8}
    (hc : c ∈ r.figures) : c ≠ ch ' ' := by
  obtain ⟨k, _, hfigures⟩ := figures_eq (r := r)
  rw [hfigures, List.mem_append] at hc
  cases hc with
  | inl hc =>
    rw [List.eq_of_mem_replicate hc]
    decide
  | inr hc =>
    obtain ⟨d, hd, rfl⟩ := Alphabet.mem_numeral hbase hc
    intro hblank
    have hread := digitValue_digitChar r.small (show d < 36 by omega)
    have hblank : digitChar r.small d = ch ' ' := hblank
    have hnone : digitValue (ch ' ') = none := by decide
    rw [hblank, hnone] at hread
    cases hread

theorem sign_length_le (r : Request) : r.sign.length ≤ 1 := by
  rw [sign]
  split_ifs
  all_goals decide

theorem pre_length_le (r : Request) : r.pre.length ≤ 2 := by
  rw [pre]
  split_ifs
  all_goals decide

theorem filter_rest (hbase : 1 < r.base) (hmax : r.base ≤ 36) :
    (r.figures ++ r.trail).filter (· ≠ ch ' ') = r.figures := by
  have hfigures : r.figures.filter (· ≠ ch ' ') = r.figures :=
    List.filter_eq_self.mpr fun c hc => decide_eq_true (figures_not_blank hbase hmax hc)
  have htrail : r.trail.filter (· ≠ ch ' ') = [] := by
    refine List.filter_eq_nil_iff.mpr fun c hc => ?_
    rw [trail] at hc
    split at hc
    · rw [List.eq_of_mem_replicate hc]
      decide
    · cases hc
  rw [List.filter_append, hfigures, htrail, List.append_nil]

/-- Parts in their order have the right length and the right value. -/
theorem prints_of_order (hbase : 1 < r.base) (hmax : r.base ≤ 36) {bytes : List (BitVec 8)}
    (h : bytes = r.lead ++ r.sign ++ r.pre ++ (r.figures ++ r.trail)) : r.Prints bytes := by
  obtain ⟨k, hk, hfigures⟩ := figures_eq (r := r)
  refine ⟨h, ?_, ?_⟩
  · have hdigits : ((digits r.small).numeral r.base r.value).length = r.count :=
      Alphabet.numeral_length hbase r.value
    have hpad : r.lead.length +
        (if r.type &&& LEFT = 0 ∧ r.type &&& ZEROPAD ≠ 0 then r.pad else 0) + r.trail.length =
          r.pad := by
      rw [lead, trail]
      by_cases hleft : r.type &&& LEFT = 0
      · by_cases hzero : r.type &&& ZEROPAD = 0
        · rw [if_pos ⟨hleft, hzero⟩, if_neg fun hc => hc.2 hzero, if_neg (not_not.mpr hleft)]
          simp
        · rw [if_neg fun hc => hzero hc.2, if_pos ⟨hleft, hzero⟩, if_neg (not_not.mpr hleft)]
          simp
      · rw [if_neg fun hc => hleft hc.1, if_neg fun hc => hleft hc.1, if_pos hleft]
        simp
    have hwidth : (r.pad : Int) = max (r.size - r.least) 0 := by
      rw [pad]
      omega
    have hleast : r.least = r.sign.length + r.pre.length + max (r.count : Int) r.precision := rfl
    rw [h, hfigures]
    simp only [List.length_append, List.length_replicate, hdigits]
    push_cast
    omega
  · rw [filter_rest hbase hmax, hfigures, ← digitChar_zero r.small]
    exact Alphabet.value_numeral hbase hmax k r.value

end Request

/-! ## The parts are what should be printed -/

theorem clearPad_and (type : U32) {flag : U32} (h : ~~~ZEROPAD &&& flag = flag) :
    clearPad type &&& flag = type &&& flag := by
  rw [clearPad]
  split
  · rw [BitVec.and_assoc, h]
  · rfl

theorem clearPad_of_right {type : U32} (h : type &&& LEFT = 0) : clearPad type = type :=
  if_neg (not_not.mpr h)

theorem signByte_clearPad (num type : U32) : signByte num (clearPad type) = signByte num type := by
  rw [signByte, clearPad_and type (by decide), clearPad_and type (by decide),
    clearPad_and type (by decide), signByte]

theorem absNum_clearPad (num type : U32) : absNum num (clearPad type) = absNum num type := by
  rw [absNum, clearPad_and type (by decide), absNum]

theorem specialText_clearPad (small : Bool) (base : Int32) (type : U32) :
    specialText small base (clearPad type) = specialText small base type := by
  rw [specialText, clearPad_and type (by decide), specialText]

theorem sizeLeft_clearPad (size base : Int32) (sign : BitVec 8) (type : U32) :
    sizeLeft size base sign (clearPad type) = sizeLeft size base sign type := by
  rw [sizeLeft, clearPad_and type (by decide), sizeLeft]

/-- The request of a call. -/
def requestOf (num : U32) (base size precision : Int32) (type : U32) : Request :=
  ⟨num, base.toInt.toNat, size.toInt, precision.toInt, type⟩

theorem base_eq_iff {base k : Int32} (hbase : 0 ≤ base.toInt) (hk : 0 ≤ k.toInt) :
    base = k ↔ base.toInt.toNat = k.toInt.toNat := by
  rw [← Int32.toInt_inj]
  omega

section
variable (num : U32) (base size precision : Int32) (type : U32)

theorem signByte_text :
    (if signByte num type ≠ 0 then [signByte num type] else []) =
      (requestOf num base size precision type).sign := by
  rw [signByte, Request.sign]
  show _ = if type &&& SIGN ≠ 0 ∧ num.toInt < 0 then _ else _
  split
  · rfl
  · show _ = if type &&& PLUS ≠ 0 then _ else if type &&& SPACE ≠ 0 then _ else _
    split
    · rfl
    · split
      · rfl
      · rfl

/-- The negative of `INT_MIN` is itself, and its absolute value without a sign. -/
theorem absNum_toNat :
    (absNum num type).toNat = (requestOf num base size precision type).value := by
  rw [absNum, Request.value]
  show _ = if type &&& SIGN ≠ 0 ∧ num.toInt < 0 then num.toInt.natAbs else num.toNat
  split
  · rename_i hneg
    have hlt := num.isLt
    have hneg := hneg.2
    rw [BitVec.toInt_eq_toNat_cond] at hneg ⊢
    rw [BitVec.toNat_neg]
    split at hneg <;> omega
  · rfl

theorem specialText_eq (hbase : 0 ≤ base.toInt) :
    specialText (decide (type &&& SMALL ≠ 0)) base type =
      (requestOf num base size precision type).pre := by
  have h8 : base = 8 ↔ base.toInt.toNat = 8 := base_eq_iff hbase (by decide)
  have h16 : base = 16 ↔ base.toInt.toNat = 16 := base_eq_iff hbase (by decide)
  have hx : ∀ small, digitChar small 33 = if small = true then ch 'x' else ch 'X' := by decide
  rw [specialText, Request.pre]
  show _ = if type &&& SPECIAL = 0 then [] else
    if base.toInt.toNat = 16 then [ch '0', if decide (type &&& SMALL ≠ 0) then ch 'x' else ch 'X']
    else if base.toInt.toNat = 8 then [ch '0'] else []
  by_cases hspecial : type &&& SPECIAL = 0
  · rw [if_neg (not_not.mpr hspecial), if_pos hspecial]
  · rw [if_pos hspecial, if_neg hspecial]
    by_cases hb8 : base = 8
    · have hno : ¬ base.toInt.toNat = 16 := by
        rw [h8.mp hb8]
        decide
      rw [if_pos hb8, if_neg hno, if_pos (h8.mp hb8)]
    · rw [if_neg hb8]
      by_cases hb16 : base = 16
      · rw [if_pos hb16, if_pos (h16.mp hb16), hx]
      · rw [if_neg hb16, if_neg fun h => hb16 (h16.mpr h), if_neg fun h => hb8 (h8.mpr h)]

theorem sizeLeft_toInt (sign : BitVec 8) (hlo : -1 ≤ size.toInt) :
    (sizeLeft size base sign type).toInt = size.toInt - (if sign ≠ 0 then [sign] else []).length -
      (specialText (decide (type &&& SMALL ≠ 0)) base type).length := by
  have hlt := size.toInt_lt
  have hone : (1 : Int32).toInt = 1 := rfl
  have htwo : (2 : Int32).toInt = 2 := rfl
  obtain ⟨rest, hrest⟩ : ∃ rest, rest = if sign ≠ 0 then size - 1 else size := ⟨_, rfl⟩
  have hsign : rest.toInt = size.toInt - (if sign ≠ 0 then [sign] else []).length ∧
      -2 ≤ rest.toInt := by
    rw [hrest]
    split
    · rw [toInt_sub_of_range (by omega) (by omega), hone, List.length_singleton]
      omega
    · rw [List.length_nil]
      omega
  have hltrest := rest.toInt_lt
  rw [sizeLeft, ← hsign.1, specialText, ← hrest]
  by_cases hspecial : type &&& SPECIAL = 0
  · rw [if_neg (not_not.mpr hspecial), if_neg (not_not.mpr hspecial), List.length_nil]
    omega
  · rw [if_pos hspecial, if_pos hspecial]
    by_cases hb8 : base = 8
    · have hno : ¬ base = 16 := by
        rw [hb8]
        decide
      rw [if_neg hno, if_pos hb8, if_pos hb8, toInt_sub_of_range (by omega) (by omega), hone,
        List.length_singleton]
      rfl
    · rw [if_neg hb8, if_neg hb8]
      by_cases hb16 : base = 16
      · rw [if_pos hb16, if_pos hb16, toInt_sub_of_range (by omega) (by omega), htwo]
        rfl
      · rw [if_neg hb16, if_neg hb16, List.length_nil]
        omega

end

/-! ## The function -/

theorem max_toInt (i precision : Int32) :
    (if precision < i then i else precision).toInt = max i.toInt precision.toInt := by
  split
  · rename_i hlt
    have hlt := Int32.lt_iff_toInt_lt.mp hlt
    omega
  · rename_i hlt
    have hlt : ¬ precision.toInt < i.toInt := fun hc => hlt (Int32.lt_iff_toInt_lt.mpr hc)
    omega

/-- The padding stands where the flags say. -/
theorem write_parts (r : Request) {room : Int32} (hlow : -2 ^ 31 + 1 < room.toInt)
    (hpad : room.toInt.toNat = r.pad) :
    write (clearPad r.type) room r.sign r.pre
        (List.replicate (r.precision - r.count).toNat (ch '0'))
        ((digits r.small).numeral r.base r.value) =
      r.lead ++ r.sign ++ r.pre ++ (r.figures ++ r.trail) := by
  rw [Request.lead, Request.figures, Request.trail]
  by_cases hl : r.type &&& LEFT = 0
  · rw [clearPad_of_right hl, if_neg (not_not.mpr hl)]
    by_cases hz : r.type &&& ZEROPAD = 0
    · rw [write_blanks _ _ _ _ hl hz hlow, if_pos ⟨hl, hz⟩, if_neg fun hc => hc.2 hz, hpad]
      simp
    · rw [write_zeropad _ _ _ _ hl hz (by omega), if_neg fun hc => hz hc.2, if_pos ⟨hl, hz⟩, hpad]
      simp
  · have hl' : clearPad r.type &&& LEFT ≠ 0 := by
      rw [clearPad_and r.type (by decide)]
      exact hl
    rw [write_left _ _ _ _ hl', if_neg fun hc => hl hc.1, if_neg fun hc => hl hc.1, if_pos hl,
      hpad]
    simp

section
variable (num : U32) (base size precision : Int32) (type : U32)

theorem tmp_numeral (hbase : 2 ≤ base.toInt) :
    (tmp (decide (type &&& SMALL ≠ 0)) base (absNum num type)).reverse =
      (digits (requestOf num base size precision type).small).numeral
        (requestOf num base size precision type).base
        (requestOf num base size precision type).value := by
  rw [tmp_reverse _ hbase, absNum_toNat num base size precision type]
  rfl

theorem tmp_length (hbase : 2 ≤ base.toInt) :
    (tmp (decide (type &&& SMALL ≠ 0)) base (absNum num type)).length =
      (requestOf num base size precision type).count := by
  have hbase' : 1 < (requestOf num base size precision type).base := by
    show 1 < base.toInt.toNat
    omega
  rw [← List.length_reverse, tmp_numeral num base size precision type hbase]
  exact Alphabet.numeral_length hbase' _

theorem count_le (hbase : 2 ≤ base.toInt) :
    (requestOf num base size precision type).count ≤ 32 := by
  have hlt : (requestOf num base size precision type).value < 2 ^ 32 := by
    rw [← absNum_toNat]
    exact (absNum num type).isLt
  have hbase' : 2 ≤ (requestOf num base size precision type).base := by
    show 2 ≤ base.toInt.toNat
    omega
  exact log_lt hbase' hlt

end

/-- The zeros that bring the digits to the precision. -/
theorem zeros_eq (r : Request) {precision : Int32} (hr : r.precision = precision.toInt)
    (hcount : r.count ≤ 32) :
    (whileAbove (ch '0') (Int32.ofNat r.count)
        (if precision < Int32.ofNat r.count then Int32.ofNat r.count else precision)).1 =
      List.replicate (r.precision - r.count).toNat (ch '0') := by
  have hi : (Int32.ofNat r.count).toInt = r.count := Int32.toInt_ofNat_of_lt (by omega)
  have hnumber : (max (Int32.ofNat r.count).toInt precision.toInt -
      (Int32.ofNat r.count).toInt).toNat = (r.precision - r.count).toNat := by omega
  rw [whileAbove, max_toInt, hnumber]

/-- What is left of `size` for the padding: no step takes it out of range. -/
theorem room_toInt (r : Request) {left precision : Int32} (hr : r.precision = precision.toInt)
    (hcount : r.count ≤ 32) (hleft : left.toInt = r.size - r.sign.length - r.pre.length)
    (hsize : -1 ≤ r.size) (hsize' : r.size ≤ 2 ^ 30) (hprecision : r.precision ≤ 2 ^ 30) :
    (left - if precision < Int32.ofNat r.count then Int32.ofNat r.count else precision).toInt =
        r.size - r.least ∧ -2 ^ 31 + 1 < r.size - r.least := by
  have hi : (Int32.ofNat r.count).toInt = r.count := Int32.toInt_ofNat_of_lt (by omega)
  have hmost := max_toInt (Int32.ofNat r.count) precision
  have hs := r.sign_length_le
  have hp := r.pre_length_le
  rw [hi, ← hr] at hmost
  rw [toInt_sub_of_range (by omega) (by omega), hmost, hleft, Request.least]
  omega

/-- For every width and precision from -1 to 2^30, `number` prints what it is given. -/
theorem number_prints {base size precision : Int32} (hbase : 2 ≤ base.toInt)
    (hmax : base.toInt ≤ 36) (hsize : -1 ≤ size.toInt) (hsize' : size.toInt ≤ 2 ^ 30)
    (hprecision : -1 ≤ precision.toInt) (hprecision' : precision.toInt ≤ 2 ^ 30) (num type : U32) :
    ∃ bytes, number num base size precision type = some bytes ∧
      (requestOf num base size precision type).Prints bytes := by
  have hknown : ¬ (base < 2 ∨ 36 < base) := by
    rw [Int32.lt_iff_toInt_lt, Int32.lt_iff_toInt_lt]
    show ¬ (base.toInt < 2 ∨ 36 < base.toInt)
    omega
  have hsign := signByte_text num base size precision type
  have hpre := specialText_eq num base size precision type (by omega)
  have hnumeral := tmp_numeral num base size precision type hbase
  have hlength := tmp_length num base size precision type hbase
  have hcount := count_le num base size precision type hbase
  have hleft := sizeLeft_toInt base size type (signByte num type) hsize
  rw [hsign, hpre] at hleft
  obtain ⟨r, hr⟩ : ∃ r, r = requestOf num base size precision type := ⟨_, rfl⟩
  have hrbase : r.base = base.toInt.toNat := by rw [hr, requestOf]
  have hrsize : r.size = size.toInt := by rw [hr, requestOf]
  have hrprecision : r.precision = precision.toInt := by rw [hr, requestOf]
  have hrtype : r.type = type := by rw [hr, requestOf]
  rw [← hr] at hsign hpre hnumeral hlength hcount hleft
  obtain ⟨hroom, hlow⟩ := room_toInt r hrprecision hcount (by rw [hleft, hrsize]) (by omega)
    (by omega) (by omega)
  refine ⟨_, number_eq num base size precision type hknown, ?_⟩
  rw [← hr]
  apply Request.prints_of_order (by omega) (by omega)
  rw [signByte_clearPad, absNum_clearPad, specialText_clearPad, sizeLeft_clearPad, hsign, hpre,
    hnumeral, hlength, zeros_eq r hrprecision hcount, ← hrtype]
  rw [← hrtype] at hroom
  exact write_parts r (by rw [hroom]; exact hlow) (by rw [hroom, Request.pad])

/-- The least number, which has no positive counterpart of its size. -/
theorem number_prints_least :
    ∃ bytes, number 0x80000000 10 14 (-1) (SIGN ||| ZEROPAD) = some bytes ∧
      (requestOf 0x80000000 10 14 (-1) (SIGN ||| ZEROPAD)).Prints bytes :=
  number_prints (by decide) (by decide) (by decide) (by decide) (by decide) (by decide) _ _

end Kernel
end CherryOS
