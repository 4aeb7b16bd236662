import CherryOS.Kernel.Scanner

/-!
# What a turn reads

A directive is read by looking at the byte the pointer is at and going on.  So the outcome of a
part of it depends on what it takes, from the format and from the arguments, and on the next
byte of the format; and the outcome of a whole turn depends on what it takes alone.
-/

namespace CherryOS
namespace Kernel

open Lib

/-- What goes from `s` to `t` does not depend on the format after the byte that `t` is at, nor
on the arguments that are left to `t`. -/
def ReadsOnly (h : Scan → Except FormatFault Scan) (s t : Scan) : Prop :=
  ∃ x ys, s.fmt = x ++ t.fmt ∧ s.args = ys ++ t.args ∧
    ∀ r bs, deref r = deref t.fmt →
      h { s with fmt := x ++ r, args := ys ++ bs } = .ok { t with fmt := r, args := bs }

theorem deref_append {r r' : List (BitVec 8)} (h : deref r = deref r') (x : List (BitVec 8)) :
    deref (x ++ r) = deref (x ++ r') := by
  cases x with
  | nil => exact h
  | cons c x => rfl

theorem deref_ne_zero {fmt : List (BitVec 8)} (hnul : 0 ∉ fmt) (hne : fmt ≠ []) :
    deref fmt ≠ 0 := by
  obtain ⟨c, rest, rfl⟩ := List.exists_cons_of_ne_nil hne
  exact fun hc => hnul (List.mem_cons.mpr (Or.inl (show c = 0 from hc).symm))

theorem advance_ok {fmt fmt' : List (BitVec 8)} (h : advance fmt = .ok fmt') :
    fmt = deref fmt :: fmt' := by
  cases fmt with
  | nil => cases h
  | cons c fmt =>
    cases h
    rfl

theorem vaArg_ok {args args' : List U32} {v : U32} (h : vaArg args = .ok (v, args')) :
    args = v :: args' := by
  cases args with
  | nil => cases h
  | cons w args =>
    cases h
    rfl

theorem bind_ok {ε α β : Type} {r : Except ε α} {f : α → Except ε β} {b : β}
    (h : r >>= f = .ok b) : ∃ a, r = .ok a ∧ f a = .ok b := by
  cases r with
  | error e => cases h
  | ok a => exact ⟨a, rfl, h⟩

/-! ## The parts of a directive -/

theorem skipAtoi_of_not_digit {fmt : List (BitVec 8)} (h : ¬ IsDigit (deref fmt)) (i : Int32) :
    skipAtoi fmt i = (fmt, i) := by
  cases fmt with
  | nil => rfl
  | cons c fmt => exact if_neg h

theorem skipAtoi_reads (fmt : List (BitVec 8)) (i : Int32) :
    ∃ x, fmt = x ++ (skipAtoi fmt i).1 ∧ ∀ r, deref r = deref (skipAtoi fmt i).1 →
      skipAtoi (x ++ r) i = (r, (skipAtoi fmt i).2) := by
  induction fmt generalizing i with
  | nil =>
    refine ⟨[], rfl, fun r hr => skipAtoi_of_not_digit ?_ i⟩
    rw [List.nil_append, hr]
    show ¬ IsDigit 0
    decide
  | cons c fmt ih =>
    rw [skipAtoi]
    by_cases hc : IsDigit c
    · rw [if_pos hc]
      obtain ⟨x, hx, hr⟩ := ih (i * 10 + Int32.ofNat c.toNat - 48)
      refine ⟨c :: x, congrArg (c :: ·) hx, fun r h => ?_⟩
      rw [List.cons_append, skipAtoi, if_pos hc]
      exact hr r h
    · rw [if_neg hc]
      refine ⟨[], rfl, fun r hr => skipAtoi_of_not_digit ?_ i⟩
      rw [List.nil_append, hr]
      exact hc

theorem scanFlags_reads {c : BitVec 8} {fmt fmt' : List (BitVec 8)} {flags flags' : U32}
    (h : scanFlags (c :: fmt) flags = .ok (fmt', flags')) :
    ∃ x, fmt = x ++ fmt' ∧ ∀ r, deref r = deref fmt' →
      scanFlags (c :: (x ++ r)) flags = .ok (r, flags') := by
  induction fmt generalizing c flags with
  | nil =>
    cases h
    refine ⟨[], rfl, fun r hr => ?_⟩
    rw [List.nil_append, scanFlags, hr]
    rfl
  | cons d fmt ih =>
    rw [scanFlags] at h
    cases hflag : flagOf (deref (d :: fmt)) with
    | none =>
      rw [hflag] at h
      cases h
      refine ⟨[], rfl, fun r hr => ?_⟩
      rw [List.nil_append, scanFlags, hr, hflag]
    | some flag =>
      rw [hflag] at h
      obtain ⟨x, hx, hr⟩ := ih h
      refine ⟨d :: x, congrArg (d :: ·) hx, fun r hr' => ?_⟩
      have hflag' : flagOf (deref (d :: (x ++ r))) = some flag := hflag
      rw [List.cons_append, scanFlags, hflag']
      exact hr r hr'

theorem ReadsOnly.refl {h : Scan → Except FormatFault Scan} {s : Scan}
    (hs : ∀ r bs, deref r = deref s.fmt →
      h { s with fmt := r, args := bs } = .ok { s with fmt := r, args := bs }) : ReadsOnly h s s :=
  ⟨[], [], rfl, rfl, hs⟩

/-- A part after another. -/
theorem ReadsOnly.bind {h h' : Scan → Except FormatFault Scan} {s t u : Scan}
    (hst : ReadsOnly h s t) (htu : ReadsOnly h' t u) : ReadsOnly (fun s => h s >>= h') s u := by
  obtain ⟨x, ys, hfmt, hargs, hread⟩ := hst
  obtain ⟨x', ys', hfmt', hargs', hread'⟩ := htu
  refine ⟨x ++ x', ys ++ ys', ?_, ?_, fun r bs hr => ?_⟩
  · rw [hfmt, hfmt', List.append_assoc]
  · rw [hargs, hargs', List.append_assoc]
  · have hnext : deref (x' ++ r) = deref t.fmt := by
      rw [hfmt']
      exact deref_append hr x'
    have hfirst := hread (x' ++ r) (ys' ++ bs) hnext
    rw [List.append_assoc, List.append_assoc]
    dsimp only
    rw [hfirst]
    exact hread' r bs hr

theorem scanWidth_readsOnly {s t : Scan} (h : scanWidth s = .ok t) : ReadsOnly scanWidth s t := by
  by_cases hdigit : IsDigit (deref s.fmt)
  · rw [scanWidth, if_pos hdigit] at h
    cases h
    obtain ⟨x, hx, hread⟩ := skipAtoi_reads s.fmt 0
    refine ⟨x, [], hx, rfl, fun r bs hr => ?_⟩
    have hdigit' : IsDigit (deref (x ++ r)) := by
      rw [deref_append hr x, ← hx]
      exact hdigit
    rw [scanWidth, if_pos hdigit', hread r hr]
    rfl
  · rw [scanWidth, if_neg hdigit] at h
    by_cases hstar : deref s.fmt = ch '*'
    · rw [if_pos hstar] at h
      obtain ⟨⟨v, args⟩, hv, h⟩ := bind_ok h
      have hargs := vaArg_ok hv
      dsimp only at h
      by_cases hneg : Int32.ofBitVec v < 0
      · rw [if_pos hneg] at h
        obtain ⟨fmt, hadvance, h⟩ := bind_ok h
        cases h
        have hfmt := advance_ok hadvance
        refine ⟨[deref s.fmt], [v], hfmt, hargs, fun r bs hr => ?_⟩
        have hd : deref ([deref s.fmt] ++ r) = deref s.fmt := rfl
        rw [scanWidth, hd, if_neg hdigit, if_pos hstar]
        exact if_pos hneg
      · rw [if_neg hneg] at h
        cases h
        refine ⟨[], [v], rfl, hargs, fun r bs hr => ?_⟩
        have hd : deref ([] ++ r) = deref s.fmt := hr
        rw [scanWidth, hd, if_neg hdigit, if_pos hstar]
        exact if_neg hneg
    · rw [if_neg hstar] at h
      cases h
      refine ReadsOnly.refl fun r bs hr => ?_
      rw [scanWidth, hr, if_neg hdigit, if_neg hstar]

theorem scanDigits_readsOnly {s t : Scan} (h : scanDigits s = .ok t) :
    ReadsOnly scanDigits s t := by
  by_cases hdigit : IsDigit (deref s.fmt)
  · rw [scanDigits, if_pos hdigit] at h
    cases h
    obtain ⟨x, hx, hread⟩ := skipAtoi_reads s.fmt 0
    refine ⟨x, [], hx, rfl, fun r bs hr => ?_⟩
    have hdigit' : IsDigit (deref (x ++ r)) := by
      rw [deref_append hr x, ← hx]
      exact hdigit
    rw [scanDigits, if_pos hdigit', hread r hr]
    rfl
  · rw [scanDigits, if_neg hdigit] at h
    by_cases hstar : deref s.fmt = ch '*'
    · rw [if_pos hstar] at h
      obtain ⟨fmt, hadvance, h⟩ := bind_ok h
      obtain ⟨⟨v, args⟩, hv, h⟩ := bind_ok h
      cases h
      refine ⟨[deref s.fmt], [v], advance_ok hadvance, vaArg_ok hv, fun r bs hr => ?_⟩
      have hd : deref ([deref s.fmt] ++ r) = deref s.fmt := rfl
      rw [scanDigits, hd, if_neg hdigit, if_pos hstar]
      rfl
    · rw [if_neg hstar] at h
      cases h
      refine ReadsOnly.refl fun r bs hr => ?_
      rw [scanDigits, hr, if_neg hdigit, if_neg hstar]

theorem scanPrecision_readsOnly {s t : Scan} (h : scanPrecision s = .ok t) :
    ReadsOnly scanPrecision s t := by
  rw [scanPrecision] at h
  by_cases hdot : deref s.fmt = ch '.'
  · rw [if_pos hdot] at h
    obtain ⟨fmt, hadvance, h⟩ := bind_ok h
    obtain ⟨u, hu, h⟩ := bind_ok h
    have ht : t.fmt = u.fmt ∧ t.args = u.args ∧ ∀ r bs,
        (if u.precision < 0 then ({ u with fmt := r, args := bs, precision := 0 } : Scan)
          else { u with fmt := r, args := bs }) = { t with fmt := r, args := bs } := by
      split at h
      · rename_i hneg
        cases h
        exact ⟨rfl, rfl, fun r bs => if_pos hneg⟩
      · rename_i hneg
        cases h
        exact ⟨rfl, rfl, fun r bs => if_neg hneg⟩
    obtain ⟨x, ys, hx, hys, hread⟩ := scanDigits_readsOnly hu
    refine ⟨deref s.fmt :: x, ys, ?_, by rw [ht.2.1, ← hys], fun r bs hr => ?_⟩
    · rw [ht.1, List.cons_append, ← hx]
      exact advance_ok hadvance
    · rw [ht.1] at hr
      have hd : deref (deref s.fmt :: x ++ r) = ch '.' := hdot
      rw [scanPrecision, if_pos hd, ← ht.2.2 r bs]
      show (scanDigits { s with fmt := x ++ r, args := ys ++ bs } >>= fun s => _) = _
      rw [hread r bs hr]
      rfl
  · rw [if_neg hdot] at h
    cases h
    refine ReadsOnly.refl fun r bs hr => ?_
    rw [scanPrecision, hr, if_neg hdot]

theorem scanQualifier_readsOnly {s t : Scan} (h : scanQualifier s = .ok t) :
    ReadsOnly scanQualifier s t := by
  rw [scanQualifier] at h
  by_cases hq : deref s.fmt = ch 'h' ∨ deref s.fmt = ch 'l' ∨ deref s.fmt = ch 'L'
  · rw [if_pos hq] at h
    obtain ⟨fmt, hadvance, h⟩ := bind_ok h
    cases h
    refine ⟨[deref s.fmt], [], advance_ok hadvance, rfl, fun r bs hr => ?_⟩
    have hd : deref ([deref s.fmt] ++ r) = deref s.fmt := rfl
    rw [scanQualifier, hd, if_pos hq]
    rfl
  · rw [if_neg hq] at h
    cases h
    refine ReadsOnly.refl fun r bs hr => ?_
    rw [scanQualifier, hr, if_neg hq]

theorem scan_reads {c : BitVec 8} {fmt : List (BitVec 8)} {args : List U32} {t : Scan}
    (h : scan (c :: fmt) args = .ok t) :
    ∃ x ys, fmt = x ++ t.fmt ∧ args = ys ++ t.args ∧ ∀ r bs, deref r = deref t.fmt →
      scan (c :: (x ++ r)) (ys ++ bs) = .ok { t with fmt := r, args := bs } := by
  obtain ⟨⟨fmt', flags⟩, hflags, h⟩ := bind_ok h
  obtain ⟨s₁, h₁, h⟩ := bind_ok h
  obtain ⟨s₂, h₂, h₃⟩ := bind_ok h
  obtain ⟨x, hx, hread⟩ := scanFlags_reads hflags
  obtain ⟨x', ys, hx', hys, hread'⟩ := (scanWidth_readsOnly h₁).bind
    ((scanPrecision_readsOnly h₂).bind (scanQualifier_readsOnly h₃))
  have hx' : fmt' = x' ++ t.fmt := hx'
  refine ⟨x ++ x', ys, by rw [hx, hx', List.append_assoc], hys, fun r bs hr => ?_⟩
  have hnext : deref (x' ++ r) = deref fmt' := by
    rw [hx']
    exact deref_append hr x'
  rw [List.append_assoc, scan, hread _ hnext]
  exact hread' r bs hr

/-! ## Conversions -/

/-- Where the one leaves the arguments `bs`, the other does the same and leaves `bs'`. -/
def Parallel (bs bs' : List U32) (r r' : Except FormatFault Converted) : Prop :=
  ∀ c, r = .ok c → c.args = bs → r' = .ok { c with args := bs' }

theorem Parallel.ite {bs bs' : List U32} {q : Prop} [Decidable q]
    {a a' b b' : Except FormatFault Converted} (h : Parallel bs bs' a a')
    (h' : Parallel bs bs' b b') : Parallel bs bs' (if q then a else b) (if q then a' else b') := by
  split
  · exact h
  · exact h'

/-- A conversion of one argument. -/
theorem Parallel.vaArg {f : U32 × List U32 → Except FormatFault Converted}
    (hf : ∀ v as c, f (v, as) = .ok c →
      c.args = as ∧ ∀ as', f (v, as') = .ok { c with args := as' }) (ys bs bs' : List U32) :
    Parallel bs bs' (vaArg (ys ++ bs) >>= f) (vaArg (ys ++ bs') >>= f) := by
  intro c hc hbs
  obtain ⟨⟨v, as⟩, hv, hfc⟩ := bind_ok hc
  have hargs := vaArg_ok hv
  obtain ⟨has, hall⟩ := hf v as c hfc
  rw [← has, hbs] at hargs
  have hlen := congrArg List.length hargs
  rw [List.length_append, List.length_cons] at hlen
  obtain ⟨w, rfl⟩ := List.length_eq_one_iff.mp (show ys.length = 1 by omega)
  cases hargs
  exact hall bs'

section
variable (mem : Bytes32) (fmt fmt' : List (BitVec 8)) (flags : U32) (width precision : Int32)
  (ys bs bs' : List U32)

theorem convertNumber_parallel (base : Int32) :
    Parallel bs bs' (convertNumber mem ⟨fmt, ys ++ bs, flags, width, precision⟩ base)
      (convertNumber mem ⟨fmt', ys ++ bs', flags, width, precision⟩ base) := by
  unfold convertNumber
  refine Parallel.vaArg (fun v as c hc => ?_) ys bs bs'
  dsimp only at hc ⊢
  split at hc
  · cases hc
  · cases hc
    exact ⟨rfl, fun _ => rfl⟩

theorem convertChar_parallel :
    Parallel bs bs' (convertChar mem ⟨fmt, ys ++ bs, flags, width, precision⟩)
      (convertChar mem ⟨fmt', ys ++ bs', flags, width, precision⟩) := by
  unfold convertChar
  refine Parallel.vaArg (fun v as c hc => ?_) ys bs bs'
  cases hc
  exact ⟨rfl, fun _ => rfl⟩

theorem convertString_parallel :
    Parallel bs bs' (convertString mem ⟨fmt, ys ++ bs, flags, width, precision⟩)
      (convertString mem ⟨fmt', ys ++ bs', flags, width, precision⟩) := by
  unfold convertString
  refine Parallel.vaArg (fun v as c hc => ?_) ys bs bs'
  cases hc
  exact ⟨rfl, fun _ => rfl⟩

theorem convert_parallel (hfmt : deref fmt' = deref fmt) (count : Nat) :
    Parallel bs bs' (convert mem ⟨fmt, ys ++ bs, flags, width, precision⟩ count)
      (convert mem ⟨fmt', ys ++ bs', flags, width, precision⟩ count) := by
  have hnumber : ∀ flags width base,
      Parallel bs bs' (convertNumber mem ⟨fmt, ys ++ bs, flags, width, precision⟩ base)
        (convertNumber mem ⟨fmt', ys ++ bs', flags, width, precision⟩ base) :=
    fun flags width base => convertNumber_parallel mem fmt fmt' flags width precision ys bs bs' base
  have hchar := convertChar_parallel mem fmt fmt' flags width precision ys bs bs'
  have hstring := convertString_parallel mem fmt fmt' flags width precision ys bs bs'
  rw [convert, convert]
  dsimp only
  rw [hfmt]
  refine .ite hchar (.ite hstring ?_)
  refine .ite (hnumber _ _ _) (.ite (.ite (hnumber _ _ _) (hnumber _ _ _)) ?_)
  refine .ite (hnumber _ _ _) (.ite (hnumber _ _ _) ?_)
  refine .ite (hnumber _ _ _) (.ite (hnumber _ _ _) (.ite ?_ ?_))
  · refine Parallel.vaArg (fun v as c hc => ?_) ys bs bs'
    cases hc
    exact ⟨rfl, fun _ => rfl⟩
  · intro c hc hbs
    cases hc
    have hnil : ys = [] := List.append_left_eq_self.mp hbs
    rw [hnil]
    rfl

end

theorem uses_of_convert {mem : Bytes32} {s : Scan} {count : Nat} {c : Converted}
    (h : convert mem s count = .ok c) : Uses s c := by
  have hends := convert_ends mem s count
  rw [h] at hends
  exact hends

/-! ## Turns -/

/-- What a turn does with a directive. -/
theorem turn_directive {p p' : Printer} (hpercent : deref p.fmt = ch '%') (h : turn p = .ok p') :
    ∃ s c, scan p.fmt p.args = .ok s ∧ convert p.mem s p.out.length = .ok c ∧
      p' = ⟨p'.fmt, c.args, p.out ++ c.put, c.mem⟩ ∧
      (deref s.fmt = 0 ∧ s.fmt = p'.fmt ∨ deref s.fmt ≠ 0 ∧ s.fmt = deref s.fmt :: p'.fmt) := by
  rw [turn, if_neg (not_not.mpr hpercent)] at h
  obtain ⟨s, hs, h⟩ := bind_ok h
  obtain ⟨c, hc, h⟩ := bind_ok h
  refine ⟨s, c, hs, hc, ?_⟩
  dsimp only at h
  by_cases hnul : deref s.fmt = 0
  · rw [if_pos hnul] at h
    cases h
    exact ⟨rfl, Or.inl ⟨hnul, rfl⟩⟩
  · rw [if_neg hnul] at h
    obtain ⟨fmt, hfmt, h⟩ := bind_ok h
    cases h
    exact ⟨rfl, Or.inr ⟨hnul, advance_ok hfmt⟩⟩

/-- A turn that does not end at the NUL reads what it takes. -/
theorem turn_reads {p p' : Printer} (h : turn p = .ok p') (hnul : 0 ∉ p.fmt) (hmore : p'.fmt ≠ []) :
    ∃ x ys, p.fmt = x ++ p'.fmt ∧ p.args = ys ++ p'.args ∧ ∀ r bs,
      turn { p with fmt := x ++ r, args := ys ++ bs } = .ok { p' with fmt := r, args := bs } := by
  by_cases hlit : deref p.fmt ≠ ch '%'
  · rw [turn, if_pos hlit] at h
    obtain ⟨fmt, hadvance, h⟩ := bind_ok h
    cases h
    refine ⟨[deref p.fmt], [], advance_ok hadvance, rfl, fun r bs => ?_⟩
    have hd : deref ([deref p.fmt] ++ r) = deref p.fmt := rfl
    rw [turn, hd, if_pos hlit]
    rfl
  · have hpercent := not_not.mp hlit
    obtain ⟨s, c, hs, hc, hp', hend⟩ := turn_directive hpercent h
    obtain ⟨head, rest, hhead⟩ : ∃ head rest, p.fmt = head :: rest := by
      refine List.exists_cons_of_ne_nil fun hnil => hlit ?_
      rw [hnil]
      decide
    rw [hhead] at hs
    obtain ⟨x, ys, hx, hys, hscan⟩ := scan_reads hs
    obtain ⟨ys', hys'⟩ := (uses_of_convert hc).args
    have hnul' : 0 ∉ s.fmt := fun hmem => hnul (by
      rw [hhead, hx]
      exact List.mem_cons_of_mem _ (List.mem_append_right _ hmem))
    have hd : deref s.fmt ≠ 0 ∧ s.fmt = deref s.fmt :: p'.fmt :=
      hend.resolve_left fun hnil => deref_ne_zero hnul' (hnil.2.trans_ne hmore) hnil.1
    have hargs : p'.args = c.args := by rw [hp']
    refine ⟨head :: (x ++ [deref s.fmt]), ys ++ ys', ?_, ?_, fun r bs => ?_⟩
    · have htext : head :: (x ++ [deref s.fmt]) ++ p'.fmt = head :: (x ++ deref s.fmt :: p'.fmt) := by
        simp
      rw [hhead, hx, htext, ← hd.2]
    · rw [hys, hargs, ← hys', List.append_assoc]
    · have hfirst : ¬ deref (head :: (x ++ [deref s.fmt]) ++ r) ≠ ch '%' := by
        rw [hhead] at hlit
        exact hlit
      have hscan' := hscan (deref s.fmt :: r) (ys' ++ bs) rfl
      have hpar := convert_parallel p.mem s.fmt (deref s.fmt :: r) s.flags s.fieldWidth s.precision
        ys' c.args bs rfl p.out.length c (by rw [hys']; exact hc) rfl
      have htext : head :: (x ++ [deref s.fmt]) ++ r = head :: (x ++ deref s.fmt :: r) := by simp
      rw [turn, if_neg hfirst, hp']
      dsimp only
      rw [htext, List.append_assoc, hscan']
      show (convert p.mem _ p.out.length >>= _) = _
      rw [hpar]
      exact if_neg (show ¬ deref (deref s.fmt :: r) = 0 from hd.1)

namespace Turn.Step

variable {p p' : Printer} {t : Turn}

theorem fmt_ne_nil (h : t.Step p p') : p.fmt ≠ [] := by
  rw [h.taken]
  exact List.append_ne_nil_of_left_ne_nil h.taken_ne_nil _

theorem no_nul (h : t.Step p p') (hnul : 0 ∉ p.fmt) : 0 ∉ p'.fmt := fun hmem => hnul (by
  rw [h.taken]
  exact List.mem_append_right _ hmem)

/-- A turn with something else after it. -/
theorem reads (h : t.Step p p') (hnul : 0 ∉ p.fmt) (hmore : p'.fmt ≠ []) :
    ∃ ys, p.args = ys ++ p'.args ∧ ∀ r bs,
      t.Step { p with fmt := t.taken ++ r, args := ys ++ bs } { p' with fmt := r, args := bs } := by
  obtain ⟨x, ys, hx, hys, hread⟩ := turn_reads h.does hnul hmore
  have htaken : t.taken = x := List.append_cancel_right (h.taken.symm.trans hx)
  refine ⟨ys, hys, fun r bs => ⟨?_, rfl, h.put, ?_⟩⟩
  · rw [htaken]
    exact hread r bs
  · obtain hlit | ⟨spec, hspec, hconv | ⟨_, hnil⟩⟩ := h.kind
    · exact Or.inl hlit
    · exact Or.inr ⟨spec, hspec, Or.inl hconv⟩
    · exact absurd hnil hmore

end Turn.Step

section
variable {p p' : Printer} {ts : List Turn}

theorem run_no_nul (hrun : Run Turns p ts p') (hnul : 0 ∉ p.fmt) : 0 ∉ p'.fmt :=
  hrun.invariant (P := fun q => 0 ∉ q.fmt) hnul fun _ _ _ hq hs => Turn.Step.no_nul hs hq

/-- So it is with the turns of a run. -/
theorem run_reads (hrun : Run Turns p ts p') (hnul : 0 ∉ p.fmt) (hmore : p'.fmt ≠ []) :
    ∃ x ys, p.fmt = x ++ p'.fmt ∧ p.args = ys ++ p'.args ∧ ∀ r bs,
      Run Turns { p with fmt := x ++ r, args := ys ++ bs } ts { p' with fmt := r, args := bs } := by
  induction hrun with
  | nil => exact ⟨[], [], rfl, rfl, fun _ _ => Run.nil⟩
  | @snoc ts v p' t hrun hs ih =>
    obtain ⟨x, ys, hx, hys, hall⟩ := ih hs.fmt_ne_nil
    obtain ⟨ys', hys', hlast⟩ := hs.reads (run_no_nul hrun hnul) hmore
    refine ⟨x ++ t.taken, ys ++ ys', ?_, ?_, fun r bs => ?_⟩
    · rw [hx, hs.taken, List.append_assoc]
    · rw [hys, hys', List.append_assoc]
    · rw [List.append_assoc, List.append_assoc]
      exact (hall (t.taken ++ r) (ys' ++ bs)).snoc (hlast r bs)

/-! ## The loop -/

theorem printLoop_done (h : p.fmt = []) (n : Nat) : printLoop n p = .ok p := by
  have hzero : deref p.fmt = 0 := by
    rw [h]
    rfl
  cases n with
  | zero => exact if_pos hzero
  | succ n => exact if_pos hzero

theorem printLoop_turn (hnul : 0 ∉ p.fmt) (hne : p.fmt ≠ []) (n : Nat) :
    printLoop (n + 1) p = turn p >>= printLoop n := if_neg (deref_ne_zero hnul hne)

theorem printLoop_run (hrun : Run Turns p ts p') (hnul : 0 ∉ p.fmt) (n : Nat) :
    printLoop (ts.length + n) p = printLoop n p' := by
  induction hrun generalizing n with
  | nil => rw [List.length_nil, Nat.zero_add]
  | @snoc ts v p' t hrun hs ih =>
    have hlen : (ts ++ [t]).length + n = ts.length + (n + 1) := by
      rw [List.length_append, List.length_singleton]
      omega
    rw [hlen, ih, printLoop_turn (run_no_nul hrun hnul) hs.fmt_ne_nil, hs.does]
    rfl

theorem turn_shorter (hnul : 0 ∉ p.fmt) (hne : p.fmt ≠ []) (h : turn p = .ok p') :
    p'.fmt.length < p.fmt.length ∧ 0 ∉ p'.fmt := by
  obtain ⟨c, rest, hfmt⟩ := List.exists_cons_of_ne_nil hne
  have hends := turn_ends hfmt hnul
  rw [h] at hends
  obtain ⟨⟨t, hs⟩, -⟩ := hends
  have hpos := List.length_pos_iff.mpr hs.taken_ne_nil
  refine ⟨?_, hs.no_nul hnul⟩
  rw [hs.taken, List.length_append]
  omega

/-- More turns than are needed change nothing. -/
theorem printLoop_stable {n m : Nat} (hnul : 0 ∉ p.fmt) (hn : p.fmt.length ≤ n)
    (hm : p.fmt.length ≤ m) : printLoop n p = printLoop m p := by
  induction n generalizing p m with
  | zero =>
    have hnil := List.length_eq_zero_iff.mp (Nat.le_zero.mp hn)
    rw [printLoop_done hnil, printLoop_done hnil]
  | succ n ih =>
    by_cases hnil : p.fmt = []
    · rw [printLoop_done hnil, printLoop_done hnil]
    · have hpos := List.length_pos_iff.mpr hnil
      obtain ⟨m, rfl⟩ : ∃ m', m = m' + 1 := ⟨m - 1, by omega⟩
      rw [printLoop_turn hnul hnil, printLoop_turn hnul hnil]
      cases hturn : turn p with
      | error e => rfl
      | ok p' =>
        obtain ⟨hshorter, hnul'⟩ := turn_shorter hnul hnil hturn
        exact ih hnul' (by omega) (by omega)

end

/-- Text without directives is copied. -/
theorem printLoop_literal {p : Printer} {n : Nat} (hnul : 0 ∉ p.fmt) (hlit : ch '%' ∉ p.fmt)
    (hn : p.fmt.length ≤ n) : printLoop n p = .ok ⟨[], p.args, p.out ++ p.fmt, p.mem⟩ := by
  obtain ⟨fmt, args, out, mem⟩ := p
  induction fmt generalizing out n with
  | nil =>
    rw [printLoop_done rfl, List.append_nil]
  | cons c fmt ih =>
    obtain ⟨m, rfl⟩ : ∃ m, n = m + 1 := ⟨n - 1, by rw [List.length_cons] at hn; omega⟩
    have hc : deref (c :: fmt) ≠ ch '%' := fun hc => hlit (by
      rw [← show c = ch '%' from hc]
      exact List.mem_cons_self)
    rw [printLoop_turn hnul (List.cons_ne_nil c fmt), turn, if_pos hc]
    show printLoop m ⟨fmt, args, out ++ [c], mem⟩ = _
    rw [ih _ (fun h => hnul (List.mem_cons_of_mem c h)) (fun h => hlit (List.mem_cons_of_mem c h))
      (by rw [List.length_cons] at hn; exact Nat.le_of_succ_le_succ hn)]
    rw [List.append_assoc]
    rfl

/-! ## Two formats -/

/-- With the arguments `as` the outer loop comes to the end of `pre`, whatever follows. -/
def Comes (mem : Bytes32) (pre : List (BitVec 8)) (as : List U32) (out : List (BitVec 8))
    (mem' : Bytes32) : Prop :=
  ∃ ts, ∀ fmt args, Run Turns ⟨pre ++ fmt, as ++ args, [], mem⟩ ts ⟨fmt, args, out, mem'⟩

section
variable {mem mem' : Bytes32} {pre fmt fmt' out : List (BitVec 8)} {as args args' : List U32}
  {ts : List Turn}

/-- If it comes there with anything following, it does with everything. -/
theorem comes_of_run
    (hrun : Run Turns ⟨pre ++ fmt, as ++ args, [], mem⟩ ts ⟨fmt, args, out, mem'⟩)
    (hnul : 0 ∉ pre ++ fmt) (hne : fmt ≠ []) : Comes mem pre as out mem' := by
  obtain ⟨x, ys, hx, hys, hall⟩ := run_reads hrun hnul hne
  cases List.append_cancel_right hx
  cases List.append_cancel_right hys
  exact ⟨ts, hall⟩

theorem vsprintf_of_comes (h : Comes mem pre as out mem') (hnul : 0 ∉ pre ++ fmt) :
    vsprintf mem (pre ++ fmt) (as ++ args) =
      printLoop fmt.length ⟨fmt, args, out, mem'⟩ >>= fun p =>
        .ok ⟨p.out ++ [0], Int32.ofNat p.out.length, p.args, p.mem⟩ := by
  obtain ⟨ts, hrun⟩ := h
  have hrun := hrun fmt args
  obtain ⟨_, _, hlen⟩ := run_pieces hrun
  have hlen : ts.length + fmt.length ≤ (pre ++ fmt).length := hlen
  obtain ⟨k, hk⟩ := Nat.exists_eq_add_of_le hlen
  have hnul' : 0 ∉ fmt := fun hmem => hnul (List.mem_append_right _ hmem)
  rw [vsprintf, hk, Nat.add_assoc, printLoop_run hrun hnul,
    printLoop_stable (p := ⟨fmt, args, out, mem'⟩) hnul' (Nat.le_add_right _ k) (le_refl _)]

theorem vsprintf_turn (h : Comes mem pre as out mem') (hnul : 0 ∉ pre ++ fmt) (hne : fmt ≠ []) :
    vsprintf mem (pre ++ fmt) (as ++ args) =
      turn ⟨fmt, args, out, mem'⟩ >>= fun p => printLoop (fmt.length - 1) p >>= fun p =>
        .ok ⟨p.out ++ [0], Int32.ofNat p.out.length, p.args, p.mem⟩ := by
  have hno : 0 ∉ fmt := fun hmem => hnul (List.mem_append_right _ hmem)
  have hpos := List.length_pos_iff.mpr hne
  obtain ⟨n, hn⟩ : ∃ n, fmt.length = n + 1 := ⟨fmt.length - 1, by omega⟩
  rw [vsprintf_of_comes h hnul, hn, printLoop_turn (p := ⟨fmt, args, out, mem'⟩) hno hne]
  cases turn ⟨fmt, args, out, mem'⟩ with
  | error e => rfl
  | ok p => rfl

/-- The last directive of a format: the rest is copied. -/
theorem vsprintf_last (h : Comes mem pre as out mem') (hnul : 0 ∉ pre ++ fmt) (hne : fmt ≠ [])
    {p : Printer} (hturn : turn ⟨fmt, args, out, mem'⟩ = .ok p) (hlit : ch '%' ∉ p.fmt) :
    vsprintf mem (pre ++ fmt) (as ++ args) =
      .ok ⟨p.out ++ p.fmt ++ [0], Int32.ofNat (p.out ++ p.fmt).length, p.args, p.mem⟩ := by
  have hno : 0 ∉ fmt := fun hmem => hnul (List.mem_append_right _ hmem)
  obtain ⟨hshort, hnul'⟩ := turn_shorter (p := ⟨fmt, args, out, mem'⟩) hno hne hturn
  have hshort : p.fmt.length < fmt.length := hshort
  rw [vsprintf_turn h hnul hne, hturn]
  show (printLoop (fmt.length - 1) p >>= _) = _
  rw [printLoop_literal hnul' hlit (by omega)]
  rfl

/-- Two formats that do the same in one turn after `pre` do the same. -/
theorem vsprintf_congr (h : Comes mem pre as out mem') (hnul : 0 ∉ pre ++ fmt)
    (hnul' : 0 ∉ pre ++ fmt') (hne : fmt ≠ []) (hne' : fmt' ≠ [])
    (hturn : turn ⟨fmt, args, out, mem'⟩ = turn ⟨fmt', args', out, mem'⟩) :
    vsprintf mem (pre ++ fmt) (as ++ args) = vsprintf mem (pre ++ fmt') (as ++ args') := by
  have hno : 0 ∉ fmt := fun hmem => hnul (List.mem_append_right _ hmem)
  have hno' : 0 ∉ fmt' := fun hmem => hnul' (List.mem_append_right _ hmem)
  rw [vsprintf_turn h hnul hne, vsprintf_turn h hnul' hne', ← hturn]
  cases hres : turn ⟨fmt, args, out, mem'⟩ with
  | error e => rfl
  | ok p =>
    obtain ⟨hshort, hnp⟩ := turn_shorter (p := ⟨fmt, args, out, mem'⟩) hno hne hres
    rw [hturn] at hres
    obtain ⟨hshort', _⟩ := turn_shorter (p := ⟨fmt', args', out, mem'⟩) hno' hne' hres
    have hshort : p.fmt.length < fmt.length := hshort
    have hshort' : p.fmt.length < fmt'.length := hshort'
    have hsame : printLoop (fmt.length - 1) p = printLoop (fmt'.length - 1) p :=
      printLoop_stable hnp (by omega) (by omega)
    show (printLoop (fmt.length - 1) p >>= _) = (printLoop (fmt'.length - 1) p >>= _)
    rw [hsame]

end

end Kernel
end CherryOS
