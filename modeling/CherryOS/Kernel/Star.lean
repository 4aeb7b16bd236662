import CherryOS.Kernel.FormatReads

/-!
# What a star stands for

A `*` for a width or a precision stands for the number that is the next argument, and the format
with the digits of that number in the place of the `*` should do the same.  A width that is not
negative is taken from the arguments, but the pointer stays at its `*`, which so becomes the
conversion character.
-/

namespace CherryOS
namespace Kernel

open Lib

/-! ## Numbers as a format spells them -/

def decimal (n : Nat) : List (BitVec 8) := (Nat.toDigits 10 n).map ch

theorem decimal_of_lt {n : Nat} (h : n < 10) : decimal n = [ch n.digitChar] := by
  rw [decimal, Nat.toDigits_of_lt_base h]
  rfl

theorem decimal_step {n : Nat} (h : 10 ≤ n) :
    decimal n = decimal (n / 10) ++ [ch (n % 10).digitChar] := by
  have happend := Nat.toDigits_append_toDigits (b := 10) (n := n / 10) (d := n % 10) (by omega)
    (by omega) (by omega)
  rw [Nat.div_add_mod] at happend
  rw [decimal, ← happend, Nat.toDigits_of_lt_base (by omega : n % 10 < 10), List.map_append]
  rfl

/-- The digit `d` as `skip_atoi` reads it. -/
theorem ch_digitChar {d : Nat} (h : d < 10) :
    IsDigit (ch d.digitChar) ∧ (ch d.digitChar).toNat = 48 + d := by
  have hall : ∀ d : Fin 10, IsDigit (ch d.val.digitChar) ∧
      (ch d.val.digitChar).toNat = 48 + d.val := by decide
  exact hall ⟨d, h⟩

theorem skipAtoi_digit {d : Nat} (h : d < 10) (fmt : List (BitVec 8)) (n : Nat) :
    skipAtoi (ch d.digitChar :: fmt) (Int32.ofNat n) = skipAtoi fmt (Int32.ofNat (10 * n + d)) := by
  obtain ⟨hdigit, hval⟩ := ch_digitChar h
  have hnext : Int32.ofNat n * 10 + Int32.ofNat (48 + d) - 48 = Int32.ofNat (10 * n + d) := by
    have hten : Int32.ofNat 10 = 10 := rfl
    have hzero : Int32.ofNat 48 = 48 := rfl
    rw [Int32.ofNat_add, Int32.ofNat_add, Int32.ofNat_mul, hten, hzero]
    grind
  rw [skipAtoi, if_pos hdigit, hval, hnext]

/-- `skip_atoi` reads a number that is spelled in decimal. -/
theorem skipAtoi_decimal (n : Nat) (fmt : List (BitVec 8)) :
    skipAtoi (decimal n ++ fmt) 0 = skipAtoi fmt (Int32.ofNat n) := by
  induction n using Nat.strong_induction_on generalizing fmt with
  | _ n ih =>
    by_cases hlt : n < 10
    · rw [decimal_of_lt hlt]
      show skipAtoi (ch n.digitChar :: fmt) (Int32.ofNat 0) = _
      rw [skipAtoi_digit hlt, Nat.mul_zero, Nat.zero_add]
    · have hstep := decimal_step (n := n) (by omega)
      rw [hstep, List.append_assoc, ih (n / 10) (by omega)]
      show skipAtoi (ch (n % 10).digitChar :: fmt) _ = _
      rw [skipAtoi_digit (by omega), Nat.div_add_mod]

theorem decimal_isDigit (n : Nat) : ∀ c ∈ decimal n, IsDigit c := by
  induction n using Nat.strong_induction_on with
  | _ n ih =>
    intro c hc
    by_cases hlt : n < 10
    · rw [decimal_of_lt hlt, List.mem_singleton] at hc
      rw [hc]
      exact (ch_digitChar hlt).1
    · rw [decimal_step (by omega), List.mem_append, List.mem_singleton] at hc
      cases hc with
      | inl hc => exact ih (n / 10) (by omega) c hc
      | inr hc =>
        rw [hc]
        exact (ch_digitChar (by omega)).1

/-- Its first byte. -/
theorem decimal_head (n : Nat) :
    ∃ c ds, decimal n = c :: ds ∧ IsDigit c ∧ (n ≠ 0 → c ≠ ch '0') := by
  induction n using Nat.strong_induction_on with
  | _ n ih =>
    by_cases hlt : n < 10
    · have hall : ∀ d : Fin 10, d.val ≠ 0 → ch d.val.digitChar ≠ ch '0' := by decide
      exact ⟨_, [], decimal_of_lt hlt, (ch_digitChar hlt).1, hall ⟨n, hlt⟩⟩
    · obtain ⟨c, ds, hds, hdigit, hhead⟩ := ih (n / 10) (by omega)
      refine ⟨c, ds ++ [ch (n % 10).digitChar], ?_, hdigit, fun _ => hhead (by omega)⟩
      rw [decimal_step (by omega), hds, List.cons_append]

/-! ## The flags of a directive -/

/-- The flags that the bytes `fl` add to `flags`. -/
def addFlags (flags : U32) (fl : List (BitVec 8)) : U32 :=
  fl.foldl (fun flags c => flags ||| (flagOf c).getD 0) flags

theorem scanFlags_all {fl rest : List (BitVec 8)} (hfl : ∀ c ∈ fl, flagOf c ≠ none)
    (hrest : flagOf (deref rest) = none) (c : BitVec 8) (flags : U32) :
    scanFlags (c :: (fl ++ rest)) flags = .ok (rest, addFlags flags fl) := by
  induction fl generalizing c flags with
  | nil =>
    rw [List.nil_append, scanFlags, hrest]
    rfl
  | cons d fl ih =>
    obtain ⟨flag, hflag⟩ := Option.ne_none_iff_exists'.mp (hfl d List.mem_cons_self)
    have hd : flagOf (deref (d :: (fl ++ rest))) = some flag := hflag
    rw [List.cons_append, scanFlags, hd]
    show scanFlags (d :: (fl ++ rest)) (flags ||| flag) = _
    rw [ih (fun c hc => hfl c (List.mem_cons_of_mem d hc)), addFlags, addFlags, List.foldl_cons,
      hflag]
    rfl

/-- A directive after its flags. -/
def scanRest (s : Scan) : Except FormatFault Scan :=
  scanWidth s >>= fun s => scanPrecision s >>= scanQualifier

theorem scan_flags {fl rest : List (BitVec 8)} (hfl : ∀ c ∈ fl, flagOf c ≠ none)
    (hrest : flagOf (deref rest) = none) (args : List U32) :
    scan (ch '%' :: (fl ++ rest)) args = scanRest ⟨rest, args, addFlags 0 fl, -1, -1⟩ := by
  rw [scan, scanFlags_all hfl hrest]
  rfl

/-! ## The number of a width -/

/-- What stands for a `*` with the argument `w`. -/
def widthText (w : Int32) : List (BitVec 8) :=
  (if w < 0 then [ch '-'] else []) ++ decimal w.toInt.natAbs

theorem ofNat_natAbs_neg {w : Int32} (hw : w < 0) : Int32.ofNat w.toInt.natAbs = -w := by
  have hneg : w.toInt < 0 := Int32.lt_iff_toInt_lt.mp hw
  have habs : (w.toInt.natAbs : Int) = -w.toInt := by omega
  rw [← Int32.ofInt_eq_ofNat, habs, Int32.ofInt_neg, Int32.ofInt_toInt]

theorem toInt_ne_zero {w : Int32} (hw : w ≠ 0) : w.toInt.natAbs ≠ 0 := by
  intro habs
  have hzero : w.toInt = (0 : Int32).toInt := by
    show w.toInt = 0
    omega
  exact hw (Int32.toInt_inj.mp hzero)

theorem flagOf_digit {c : BitVec 8} (hc : IsDigit c) (hzero : c ≠ ch '0') : flagOf c = none := by
  have hall : ∀ c : BitVec 8, IsDigit c → c ≠ ch '0' → flagOf c = none := by decide
  exact hall c hc hzero

theorem scan_digits {fl post : List (BitVec 8)} (hfl : ∀ c ∈ fl, flagOf c ≠ none) {n : Nat}
    (hn : n ≠ 0) (hpost : ¬ IsDigit (deref post)) (bs : List U32) :
    scan (ch '%' :: (fl ++ (decimal n ++ post))) bs =
      scanPrecision ⟨post, bs, addFlags 0 fl, Int32.ofNat n, -1⟩ >>= scanQualifier := by
  obtain ⟨c, ds, hds, hdigit, hhead⟩ := decimal_head n
  have hd : deref (decimal n ++ post) = c := by
    rw [hds]
    rfl
  have hread : skipAtoi (decimal n ++ post) 0 = (post, Int32.ofNat n) := by
    rw [skipAtoi_decimal, skipAtoi_of_not_digit hpost]
  rw [scan_flags hfl (by rw [hd]; exact flagOf_digit hdigit (hhead hn)), scanRest, scanWidth, hd,
    if_pos hdigit, hread]
  rfl

theorem scanWidth_star (w : Int32) (post : List (BitVec 8)) (bs : List U32) (flags : U32) :
    scanWidth ⟨ch '*' :: post, w.toBitVec :: bs, flags, -1, -1⟩ =
      .ok (if w < 0 then ⟨post, bs, flags ||| LEFT, -w, -1⟩
        else ⟨ch '*' :: post, bs, flags, w, -1⟩) := by
  have hd : deref (ch '*' :: post) = ch '*' := rfl
  have hdigit : ¬ IsDigit (ch '*') := by decide
  rw [scanWidth, hd, if_neg hdigit, if_pos rfl]
  show (if w < 0 then _ else _) = _
  split
  · rfl
  · rfl

/-- The two parses come to the same state if the width is negative. -/
theorem scan_star_neg {fl post : List (BitVec 8)} (hfl : ∀ c ∈ fl, flagOf c ≠ none) {w : Int32}
    (hw : w < 0) (hzero : w ≠ 0) (hpost : ¬ IsDigit (deref post)) (bs : List U32) :
    scan (ch '%' :: (fl ++ ch '*' :: post)) (w.toBitVec :: bs) =
      scan (ch '%' :: (fl ++ (widthText w ++ post))) bs := by
  have hminus : flagOf (ch '-') = some LEFT := rfl
  have hfl' : ∀ c ∈ fl ++ [ch '-'], flagOf c ≠ none := by
    intro c hc
    rw [List.mem_append, List.mem_singleton] at hc
    cases hc with
    | inl hc => exact hfl c hc
    | inr hc =>
      rw [hc, hminus]
      exact Option.some_ne_none LEFT
  have hflags : addFlags 0 (fl ++ [ch '-']) = addFlags 0 fl ||| LEFT := by
    rw [addFlags, List.foldl_append, List.foldl_cons, List.foldl_nil, hminus]
    rfl
  have htext : fl ++ (widthText w ++ post) =
      (fl ++ [ch '-']) ++ (decimal w.toInt.natAbs ++ post) := by
    rw [widthText, if_pos hw, List.append_assoc, List.append_assoc]
  have hstar : flagOf (deref (ch '*' :: post)) = none := rfl
  rw [htext, scan_digits hfl' (toInt_ne_zero hzero) hpost, hflags, ofNat_natAbs_neg hw,
    scan_flags hfl hstar, scanRest, scanWidth_star, if_pos hw]
  rfl

/-! ## The number of a precision -/

theorem scanPrecision_star (p : Int32) (post : List (BitVec 8)) (bs : List U32) (flags : U32)
    (width : Int32) :
    scanPrecision ⟨ch '.' :: ch '*' :: post, p.toBitVec :: bs, flags, width, -1⟩ =
      .ok ⟨post, bs, flags, width, if p < 0 then 0 else p⟩ := by
  show Except.ok (if p < 0 then _ else _) = _
  split
  · rfl
  · rfl

theorem ofNat_toNat (p : Int32) : Int32.ofNat p.toInt.toNat = if p < 0 then 0 else p := by
  split
  · rename_i hneg
    have hneg : p.toInt < 0 := Int32.lt_iff_toInt_lt.mp hneg
    rw [Int.toNat_of_nonpos (le_of_lt hneg)]
    rfl
  · rename_i hneg
    have hneg : ¬ p.toInt < 0 := fun h => hneg (Int32.lt_iff_toInt_lt.mpr h)
    rw [← Int32.ofInt_eq_ofNat, Int.toNat_of_nonneg (not_lt.mp hneg), Int32.ofInt_toInt]

theorem scanPrecision_digits (p : Int32) {post : List (BitVec 8)} (hpost : ¬ IsDigit (deref post))
    (bs : List U32) (flags : U32) (width : Int32) :
    scanPrecision ⟨ch '.' :: (decimal p.toInt.toNat ++ post), bs, flags, width, -1⟩ =
      .ok ⟨post, bs, flags, width, if p < 0 then 0 else p⟩ := by
  obtain ⟨c, ds, hds, hdigit, _⟩ := decimal_head p.toInt.toNat
  have hd : IsDigit (deref (decimal p.toInt.toNat ++ post)) := by
    rw [hds]
    exact hdigit
  have hread : skipAtoi (decimal p.toInt.toNat ++ post) 0 = (post, if p < 0 then 0 else p) := by
    rw [skipAtoi_decimal, skipAtoi_of_not_digit hpost, ofNat_toNat]
  have hdot : deref (ch '.' :: (decimal p.toInt.toNat ++ post)) = ch '.' := rfl
  rw [scanPrecision, hdot, if_pos rfl]
  show (scanDigits ⟨decimal p.toInt.toNat ++ post, bs, flags, width, -1⟩ >>= _) = _
  rw [scanDigits, if_pos hd, hread]
  show Except.ok (if (if p < 0 then 0 else p) < 0 then _ else _) = _
  rw [if_neg]
  split
  · decide
  · assumption

/-! ## The width before a precision -/

inductive Width
  | none
  | digits (ds : List (BitVec 8))
  | star (w : Int32)

namespace Width

def text : Width → List (BitVec 8)
  | none => []
  | digits ds => ds
  | star _ => [ch '*']

def args : Width → List U32
  | star w => [w.toBitVec]
  | _ => []

/-- Digits that are read as a width: a `0` in front of them would be a flag. -/
def Proper : Width → Prop
  | digits ds => (∀ c ∈ ds, IsDigit c) ∧ ∃ c ds', ds = c :: ds' ∧ c ≠ ch '0'
  | _ => True

/-- The pointer goes on after it. -/
def Passed : Width → Prop
  | star w => w < 0
  | _ => True

theorem text_flag {wd : Width} (h : wd.Proper) (post : List (BitVec 8)) :
    flagOf (deref (wd.text ++ ch '.' :: post)) = Option.none := by
  cases wd with
  | none => rfl
  | digits ds =>
    obtain ⟨hall, c, ds', hds, hzero⟩ := h
    have hdigit : IsDigit c := hall c (by rw [hds]; exact List.mem_cons_self)
    rw [text, hds]
    exact flagOf_digit hdigit hzero
  | star w => rfl

theorem skipAtoi_all {ds : List (BitVec 8)} (h : ∀ c ∈ ds, IsDigit c) (fmt : List (BitVec 8))
    (i : Int32) : skipAtoi (ds ++ fmt) i = skipAtoi fmt (skipAtoi ds i).2 := by
  induction ds generalizing i with
  | nil => rfl
  | cons c ds ih =>
    have hc := h c List.mem_cons_self
    rw [List.cons_append, skipAtoi, if_pos hc, skipAtoi, if_pos hc]
    exact ih (fun d hd => h d (List.mem_cons_of_mem c hd)) _

/-- Whatever follows, a width that is passed leaves the same. -/
theorem scanWidth_passed {wd : Width} (h : wd.Proper) (hpass : wd.Passed) (flags : U32) :
    ∃ flags' width, ∀ post bs,
      scanWidth ⟨wd.text ++ ch '.' :: post, wd.args ++ bs, flags, -1, -1⟩ =
        .ok ⟨ch '.' :: post, bs, flags', width, -1⟩ := by
  cases wd with
  | none => exact ⟨flags, -1, fun post bs => rfl⟩
  | digits ds =>
    obtain ⟨hall, c, ds', hds, _⟩ := h
    refine ⟨flags, (skipAtoi ds 0).2, fun post bs => ?_⟩
    have hdigit : IsDigit (deref (ds ++ ch '.' :: post)) := by
      rw [hds]
      exact hall c (by rw [hds]; exact List.mem_cons_self)
    have hdot : ¬ IsDigit (deref (ch '.' :: post)) := by
      show ¬ IsDigit (ch '.')
      decide
    rw [text, scanWidth, if_pos hdigit, skipAtoi_all hall, skipAtoi_of_not_digit hdot]
    rfl
  | star w =>
    refine ⟨flags ||| LEFT, -w, fun post bs => ?_⟩
    show scanWidth ⟨ch '*' :: ch '.' :: post, w.toBitVec :: bs, flags, -1, -1⟩ = _
    rw [scanWidth_star, if_pos (show w < 0 from hpass)]

end Width

theorem scan_precision_star {fl post : List (BitVec 8)} (hfl : ∀ c ∈ fl, flagOf c ≠ none)
    {wd : Width} (h : wd.Proper) (hpass : wd.Passed) (hpost : ¬ IsDigit (deref post)) (p : Int32)
    (bs : List U32) :
    scan (ch '%' :: (fl ++ (wd.text ++ ch '.' :: ch '*' :: post))) (wd.args ++ p.toBitVec :: bs) =
      scan (ch '%' :: (fl ++ (wd.text ++ ch '.' :: (decimal p.toInt.toNat ++ post))))
        (wd.args ++ bs) := by
  obtain ⟨flags, width, hread⟩ := Width.scanWidth_passed h hpass (addFlags 0 fl)
  have hnext : ∀ s : Scan, (Except.ok s >>= fun s => scanPrecision s >>= scanQualifier) =
      scanPrecision s >>= scanQualifier := fun _ => rfl
  rw [scan_flags hfl (Width.text_flag h _), scan_flags hfl (Width.text_flag h _), scanRest,
    scanRest, hread, hread, hnext, hnext, scanPrecision_star, scanPrecision_digits p hpost]

/-! ## Turns -/

/-- After the `%` a turn depends on what is scanned alone. -/
theorem turn_scan {fmt fmt' : List (BitVec 8)} {args args' : List U32}
    (h : scan (ch '%' :: fmt) args = scan (ch '%' :: fmt') args') (out : List (BitVec 8))
    (mem : Bytes32) :
    turn ⟨ch '%' :: fmt, args, out, mem⟩ = turn ⟨ch '%' :: fmt', args', out, mem⟩ := by
  have hd : ∀ fmt, ¬ deref (ch '%' :: fmt) ≠ ch '%' := fun fmt hne => hne rfl
  rw [turn, turn, if_neg (hd fmt), if_neg (hd fmt'), h]

/-- At the `*` of a width that is not negative the directive ends. -/
theorem turn_star {fl : List (BitVec 8)} (hfl : ∀ c ∈ fl, flagOf c ≠ none) {w : Int32}
    (hw : ¬ w < 0) (post : List (BitVec 8)) (bs : List U32) (out : List (BitVec 8))
    (mem : Bytes32) :
    turn ⟨ch '%' :: (fl ++ ch '*' :: post), w.toBitVec :: bs, out, mem⟩ =
      .ok ⟨post, bs, out ++ [ch '%', ch '*'], mem⟩ := by
  have hpercent : ¬ deref (ch '%' :: (fl ++ ch '*' :: post)) ≠ ch '%' := fun hne => hne rfl
  have hstar : flagOf (deref (ch '*' :: post)) = none := rfl
  rw [turn, if_neg hpercent]
  dsimp only
  rw [scan_flags hfl hstar, scanRest, scanWidth_star, if_neg hw]
  rfl

/-- A directive that takes no argument puts less than its text. -/
theorem turn_short {fmt post out : List (BitVec 8)} {args bs : List U32} {mem : Bytes32}
    {flags : U32} {width : Int32} {p : Printer}
    (hscan : scan (ch '%' :: fmt) args =
      scanPrecision ⟨post, bs, flags, width, -1⟩ >>= scanQualifier)
    (h : turn ⟨ch '%' :: fmt, args, out, mem⟩ = .ok p) :
    p.fmt <:+ post ∧
      (p.args = bs → p.out.length + p.fmt.length ≤ out.length + 1 + post.length) := by
  obtain ⟨s, c, hs, hc, hp, hend⟩ := turn_directive rfl h
  rw [hscan] at hs
  obtain ⟨t, ht, hs⟩ := bind_ok hs
  obtain ⟨x, ys, hx, hys, _⟩ := (scanPrecision_readsOnly ht).bind (scanQualifier_readsOnly hs)
  have hx : post = x ++ s.fmt := hx
  have hys : bs = ys ++ s.args := hys
  have hnext : p.fmt <:+ s.fmt ∧
      p.fmt.length + (if deref s.fmt = 0 then 1 else 2) ≤ s.fmt.length + 1 := by
    obtain ⟨hnul, hfmt⟩ | ⟨hnul, hfmt⟩ := hend
    · rw [if_pos hnul, hfmt]
      exact ⟨List.suffix_refl _, le_refl _⟩
    · have hlen := congrArg List.length hfmt
      rw [List.length_cons] at hlen
      rw [if_neg hnul, hlen]
      exact ⟨⟨[deref s.fmt], hfmt.symm⟩, le_refl _⟩
  obtain ⟨hsuffix, hnext⟩ := hnext
  have hargs : p.args = c.args := by rw [hp]
  have hout : p.out = out ++ c.put := by rw [hp]
  refine ⟨hsuffix.trans ⟨x, hx.symm⟩, fun hsame => ?_⟩
  rw [hargs] at hsame
  have hlen := congrArg List.length hys
  have hpost := congrArg List.length hx
  rw [List.length_append] at hlen hpost
  rw [hout, List.length_append]
  obtain ⟨v, hv⟩ | ⟨_, hput⟩ := uses_of_convert hc
  · have hv := congrArg List.length hv
    rw [List.length_cons, hsame] at hv
    omega
  · omega

/-! ## What a star means -/

/-- What may follow a `*`. -/
def Follows (post : List (BitVec 8)) : Prop := 0 ∉ post ∧ ¬ IsDigit (deref post)

section
variable (mem : Bytes32) (pre : List (BitVec 8)) (as : List U32) (fl : List (BitVec 8))

/-- In a directive after `pre` that goes on after its flags `fl`, `fmt` with the arguments `args`
does the same as `fmt'` with `args'`. -/
def Same (fmt : List (BitVec 8)) (args : List U32) (fmt' : List (BitVec 8)) (args' : List U32) :
    Prop :=
  vsprintf mem (pre ++ ch '%' :: (fl ++ fmt)) (as ++ args) =
    vsprintf mem (pre ++ ch '%' :: (fl ++ fmt')) (as ++ args')

/-- The `*` of a width means its argument `w`. -/
def WidthMeans (w : Int32) (post : List (BitVec 8)) (bs : List U32) : Prop :=
  Same mem pre as fl (ch '*' :: post) (w.toBitVec :: bs) (widthText w ++ post) bs

/-- The `*` of a precision after the width `wd` means its argument `p`. -/
def PrecisionMeans (wd : Width) (p : Int32) (post : List (BitVec 8)) (bs : List U32) : Prop :=
  Same mem pre as fl (wd.text ++ ch '.' :: ch '*' :: post) (wd.args ++ p.toBitVec :: bs)
    (wd.text ++ ch '.' :: (decimal p.toInt.toNat ++ post)) (wd.args ++ bs)

end

theorem flags_no_nul {fl : List (BitVec 8)} (hfl : ∀ c ∈ fl, flagOf c ≠ none) : 0 ∉ fl :=
  fun h => hfl 0 h rfl

theorem digits_no_nul {ds : List (BitVec 8)} (h : ∀ c ∈ ds, IsDigit c) : 0 ∉ ds :=
  fun hmem => absurd (h 0 hmem) (by decide)

theorem widthText_no_nul (w : Int32) : 0 ∉ widthText w := by
  intro h
  obtain hsign | hdigit := List.mem_append.mp h
  · split at hsign
    · exact absurd (List.mem_singleton.mp hsign) (by decide)
    · cases hsign
  · exact digits_no_nul (decimal_isDigit _) hdigit

theorem Width.text_no_nul {wd : Width} (h : wd.Proper) : 0 ∉ wd.text := by
  cases wd with
  | none => exact List.not_mem_nil
  | digits ds => exact digits_no_nul h.1
  | star w => exact fun hmem => absurd (List.mem_singleton.mp hmem) (by decide)

section
variable {mem mem' : Bytes32} {pre fl post out : List (BitVec 8)} {as : List U32}

theorem directive_no_nul (hpre : 0 ∉ pre) (hfl : ∀ c ∈ fl, flagOf c ≠ none) {fmt : List (BitVec 8)}
    (hfmt : 0 ∉ fmt) : 0 ∉ pre ++ ch '%' :: (fl ++ fmt) := by
  have hpercent : (0 : BitVec 8) ≠ ch '%' := by decide
  rw [List.mem_append, List.mem_cons, List.mem_append]
  exact not_or.mpr ⟨hpre, not_or.mpr ⟨hpercent, not_or.mpr ⟨flags_no_nul hfl, hfmt⟩⟩⟩

theorem same_of_scan (h : Comes mem pre as out mem') (hpre : 0 ∉ pre)
    (hfl : ∀ c ∈ fl, flagOf c ≠ none) {fmt fmt' : List (BitVec 8)} {args args' : List U32}
    (hfmt : 0 ∉ fmt) (hfmt' : 0 ∉ fmt')
    (hscan : scan (ch '%' :: (fl ++ fmt)) args = scan (ch '%' :: (fl ++ fmt')) args') :
    Same mem pre as fl fmt args fmt' args' :=
  vsprintf_congr h (directive_no_nul hpre hfl hfmt) (directive_no_nul hpre hfl hfmt')
    (List.cons_ne_nil _ _) (List.cons_ne_nil _ _) (turn_scan hscan out mem')

theorem widthMeans_neg (h : Comes mem pre as out mem') (hpre : 0 ∉ pre)
    (hfl : ∀ c ∈ fl, flagOf c ≠ none) {w : Int32} (hzero : w ≠ 0) (hw : w < 0)
    (hpost : Follows post) (bs : List U32) : WidthMeans mem pre as fl w post bs := by
  have hstar : (0 : BitVec 8) ≠ ch '*' := by decide
  refine same_of_scan h hpre hfl ?_ ?_ (scan_star_neg hfl hw hzero hpost.2 bs)
  · exact List.not_mem_cons_of_ne_of_not_mem hstar hpost.1
  · exact fun hmem => (List.mem_append.mp hmem).elim (widthText_no_nul w) hpost.1

/-- With a `*` that is passed over, the arguments that are left or the length of the output are
not the same. -/
theorem not_widthMeans (h : Comes mem pre as out mem') (hpre : 0 ∉ pre)
    (hfl : ∀ c ∈ fl, flagOf c ≠ none) {w : Int32} (hzero : w ≠ 0) (hw : ¬ w < 0)
    (hpost : Follows post) (hlit : ch '%' ∉ post) (bs : List U32) :
    ¬ WidthMeans mem pre as fl w post bs := by
  have hstar : (0 : BitVec 8) ≠ ch '*' := by decide
  have hnul := directive_no_nul hpre hfl (List.not_mem_cons_of_ne_of_not_mem hstar hpost.1)
  have hnul' : 0 ∉ pre ++ ch '%' :: (fl ++ (widthText w ++ post)) := by
    refine directive_no_nul hpre hfl fun hmem => ?_
    exact (List.mem_append.mp hmem).elim (widthText_no_nul w) hpost.1
  have htext : widthText w = decimal w.toInt.natAbs := by
    rw [widthText, if_neg hw, List.nil_append]
  intro hsame
  rw [WidthMeans, Same, vsprintf_last h hnul (List.cons_ne_nil _ _)
    (turn_star hfl hw post bs out mem') hlit] at hsame
  have hok := hsame.symm
  rw [vsprintf_turn h hnul' (List.cons_ne_nil _ _)] at hok
  obtain ⟨p, hturn, _⟩ := bind_ok hok
  obtain ⟨hsuffix, hshort⟩ := turn_short
    (by rw [htext]; exact scan_digits hfl (toInt_ne_zero hzero) hpost.2 bs) hturn
  have hlit' : ch '%' ∉ p.fmt := fun hmem => hlit (hsuffix.subset hmem)
  rw [vsprintf_last h hnul' (List.cons_ne_nil _ _) hturn hlit'] at hsame
  injection hsame with hsame
  injection hsame with hbuf _ hargs _
  have hlen := congrArg List.length hbuf
  have hshort := hshort hargs.symm
  simp only [List.length_append, List.length_cons, List.length_nil] at hlen
  omega

theorem precisionMeans_passed (h : Comes mem pre as out mem') (hpre : 0 ∉ pre)
    (hfl : ∀ c ∈ fl, flagOf c ≠ none) {wd : Width} (hproper : wd.Proper) (hpass : wd.Passed)
    (p : Int32) (hpost : Follows post) (bs : List U32) :
    PrecisionMeans mem pre as fl wd p post bs := by
  have hdot : (0 : BitVec 8) ≠ ch '.' := by decide
  have hstar : (0 : BitVec 8) ≠ ch '*' := by decide
  have htext := Width.text_no_nul hproper
  refine same_of_scan h hpre hfl ?_ ?_ (scan_precision_star hfl hproper hpass hpost.2 p bs)
  · rw [List.mem_append, List.mem_cons, List.mem_cons]
    exact not_or.mpr ⟨htext, not_or.mpr ⟨hdot, not_or.mpr ⟨hstar, hpost.1⟩⟩⟩
  · rw [List.mem_append, List.mem_cons, List.mem_append]
    exact not_or.mpr ⟨htext, not_or.mpr ⟨hdot,
      not_or.mpr ⟨digits_no_nul (decimal_isDigit _), hpost.1⟩⟩⟩

/-- Behind the `*` of a width that is not negative the `.*` is copied, and its argument is left. -/
theorem not_precisionMeans (h : Comes mem pre as out mem') (hpre : 0 ∉ pre)
    (hfl : ∀ c ∈ fl, flagOf c ≠ none) {w : Int32} (hw : ¬ w < 0) (p : Int32) (hpost : Follows post)
    (hlit : ch '%' ∉ post) (bs : List U32) :
    ¬ PrecisionMeans mem pre as fl (.star w) p post bs := by
  have hdigits := decimal_isDigit p.toInt.toNat
  have hlast : ∀ (rest : List (BitVec 8)) (args : List U32), 0 ∉ rest → ch '%' ∉ rest →
      vsprintf mem (pre ++ ch '%' :: (fl ++ ch '*' :: rest)) (as ++ w.toBitVec :: args) =
        .ok ⟨out ++ [ch '%', ch '*'] ++ rest ++ [0],
          Int32.ofNat (out ++ [ch '%', ch '*'] ++ rest).length, args, mem'⟩ := by
    intro rest args hrest hpercent
    have hstar : (0 : BitVec 8) ≠ ch '*' := by decide
    exact vsprintf_last h
      (directive_no_nul hpre hfl (List.not_mem_cons_of_ne_of_not_mem hstar hrest))
      (List.cons_ne_nil _ _) (turn_star hfl hw rest args out mem') hpercent
  intro hsame
  have hsame : vsprintf mem (pre ++ ch '%' :: (fl ++ ch '*' :: (ch '.' :: ch '*' :: post)))
      (as ++ w.toBitVec :: (p.toBitVec :: bs)) =
      vsprintf mem (pre ++ ch '%' :: (fl ++ ch '*' :: (ch '.' :: (decimal p.toInt.toNat ++ post))))
        (as ++ w.toBitVec :: bs) := hsame
  rw [hlast, hlast] at hsame
  · injection hsame with hsame
    injection hsame with _ _ hargs _
    exact List.cons_ne_self p.toBitVec bs hargs
  all_goals
    simp only [List.mem_cons, List.mem_append, not_or]
  · exact ⟨by decide, digits_no_nul hdigits, hpost.1⟩
  · exact ⟨by decide, fun hmem => absurd (hdigits _ hmem) (by decide), hlit⟩
  · exact ⟨by decide, by decide, hpost.1⟩
  · exact ⟨by decide, by decide, hlit⟩

/-- The `*` of a width means its argument exactly if that is negative, and the `*` of a precision
exactly if the width before it is not a `*` whose argument is not negative: so it is for
everything that may follow, and for each end of a format that has no more directives. -/
theorem star_means_iff (h : Comes mem pre as out mem') (hpre : 0 ∉ pre)
    (hfl : ∀ c ∈ fl, flagOf c ≠ none) :
    (∀ w : Int32, w ≠ 0 → w ≠ Int32.minValue →
      ((∀ post bs, Follows post → WidthMeans mem pre as fl w post bs) ↔ w < 0) ∧
        ∀ post bs, Follows post → ch '%' ∉ post →
          (WidthMeans mem pre as fl w post bs ↔ w < 0)) ∧
      ∀ wd : Width, wd.Proper →
        ((∀ p post bs, Follows post → PrecisionMeans mem pre as fl wd p post bs) ↔ wd.Passed) ∧
          ∀ p post bs, Follows post → ch '%' ∉ post →
            (PrecisionMeans mem pre as fl wd p post bs ↔ wd.Passed) := by
  have hempty : Follows [] := ⟨List.not_mem_nil, by decide⟩
  refine ⟨fun w hzero _ => ?_, fun wd hproper => ?_⟩
  · have hlast : ∀ post bs, Follows post → ch '%' ∉ post →
        (WidthMeans mem pre as fl w post bs ↔ w < 0) := by
      intro post bs hpost hlit
      refine ⟨fun hmeans => ?_, fun hw => widthMeans_neg h hpre hfl hzero hw hpost bs⟩
      by_contra hw
      exact not_widthMeans h hpre hfl hzero hw hpost hlit bs hmeans
    refine ⟨⟨fun hall => ?_, fun hw post bs hpost => ?_⟩, hlast⟩
    · exact (hlast [] [] hempty List.not_mem_nil).mp (hall [] [] hempty)
    · exact widthMeans_neg h hpre hfl hzero hw hpost bs
  · have hlast : ∀ p post bs, Follows post → ch '%' ∉ post →
        (PrecisionMeans mem pre as fl wd p post bs ↔ wd.Passed) := by
      intro p post bs hpost hlit
      refine ⟨fun hmeans => ?_, fun hpass => ?_⟩
      · cases wd with
        | none => trivial
        | digits ds => trivial
        | star w =>
          by_contra hw
          exact not_precisionMeans h hpre hfl hw p hpost hlit bs hmeans
      · exact precisionMeans_passed h hpre hfl hproper hpass p hpost bs
    refine ⟨⟨fun hall => ?_, fun hpass p post bs hpost => ?_⟩, hlast⟩
    · exact (hlast 0 [] [] hempty List.not_mem_nil).mp (hall 0 [] [] hempty)
    · exact precisionMeans_passed h hpre hfl hproper hpass p hpost bs

end

/-- `%*d` for -5 and for 5. -/
theorem star_means_iff_five :
    WidthMeans (fun _ => 0) [] [] [] (-5) [ch 'd'] [7] ∧
      ¬ WidthMeans (fun _ => 0) [] [] [] 5 [ch 'd'] [7] := by
  have hcomes : Comes (fun _ => 0) [] [] [] (fun _ => 0) := ⟨[], fun _ _ => Run.nil⟩
  have hnul : 0 ∉ ([] : List (BitVec 8)) := List.not_mem_nil
  have hfl : ∀ c ∈ ([] : List (BitVec 8)), flagOf c ≠ none := fun c hc => by cases hc
  have hd : Follows [ch 'd'] := ⟨by decide, by decide⟩
  have hmeans := (star_means_iff hcomes hnul hfl).1
  have hneg := ((hmeans (-5) (by decide) (by decide)).2 [ch 'd'] [7] hd (by decide)).mpr (by decide)
  refine ⟨hneg, fun hpos => ?_⟩
  have hlt := ((hmeans 5 (by decide) (by decide)).2 [ch 'd'] [7] hd (by decide)).mp hpos
  exact absurd hlt (by decide)

/-- With 5 and 7 for `%*d` the format itself is printed, where `%5d` prints `    7`. -/
theorem star_width_stays :
    ¬ ∀ (mem mem' : Bytes32) (pre fl post out : List (BitVec 8)) (as bs : List U32) (w : Int32),
      Comes mem pre as out mem' → 0 ∉ pre → (∀ c ∈ fl, flagOf c ≠ none) → w ≠ 0 →
        w ≠ Int32.minValue → Follows post → WidthMeans mem pre as fl w post bs := by
  intro hall
  have hsame : WidthMeans (fun _ => 0) [] [] [] 5 [ch 'd'] [7] :=
    hall (fun _ => 0) (fun _ => 0) [] [] [ch 'd'] [] [] [7] 5 ⟨[], fun _ _ => Run.nil⟩
      List.not_mem_nil (fun c hc => by cases hc) (by decide) (by decide) ⟨by decide, by decide⟩
  have hstar : (vsprintf (fun _ => 0) [ch '%', ch '*', ch 'd'] [5, 7]).toOption.map Printed.buf =
      some [ch '%', ch '*', ch 'd', 0] := by decide
  have hfive : (vsprintf (fun _ => 0) [ch '%', ch '5', ch 'd'] [7]).toOption.map Printed.buf =
      some [ch ' ', ch ' ', ch ' ', ch ' ', ch '7', 0] := by decide
  have hbuf := congrArg (fun r => r.toOption.map Printed.buf) hsame
  exact absurd (hstar.symm.trans (hbuf.trans hfive)) (by decide)

end Kernel
end CherryOS
