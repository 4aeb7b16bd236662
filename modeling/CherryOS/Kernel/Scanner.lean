import CherryOS.Kernel.Vsprintf
import CherryOS.Lib.Outcome
import CherryOS.Lib.Run

/-!
# The format scanner

However a directive is cut short, a turn of the outer loop goes on by at least one byte and not
past the NUL, and it takes no more arguments than bytes: the `%` stands for a width that is an
argument, even where the `*` is left.  What a turn takes from the format and what it puts in the
buffer are its label in a run, and the labels of a run are the format and the output, cut into
pieces.
-/

namespace CherryOS
namespace Kernel

open Lib

/-! ## What stands between `%` and the conversion character -/

/-- A byte that belongs to flags, width, precision or qualifier. -/
def IsSpec (c : BitVec 8) : Prop :=
  flagOf c ≠ none ∨ IsDigit c ∨ c = ch '*' ∨ c = ch '.' ∨ c = ch 'h' ∨ c = ch 'l' ∨ c = ch 'L'

instance (c : BitVec 8) : Decidable (IsSpec c) := inferInstanceAs (Decidable (_ ∨ _))

/-- The pointer goes on by bytes of a specification. -/
def Takes (fmt fmt' : List (BitVec 8)) : Prop := ∃ spec, fmt = spec ++ fmt' ∧ ∀ c ∈ spec, IsSpec c

theorem Takes.refl (fmt : List (BitVec 8)) : Takes fmt fmt := ⟨[], rfl, fun _ h => by cases h⟩

theorem Takes.trans {fmt fmt' fmt'' : List (BitVec 8)} (h : Takes fmt fmt')
    (h' : Takes fmt' fmt'') : Takes fmt fmt'' := by
  obtain ⟨spec, rfl, hspec⟩ := h
  obtain ⟨spec', rfl, hspec'⟩ := h'
  refine ⟨spec ++ spec', (List.append_assoc _ _ _).symm, fun c hc => ?_⟩
  exact (List.mem_append.mp hc).elim (hspec c) (hspec' c)

theorem Takes.cons {c : BitVec 8} {fmt fmt' : List (BitVec 8)} (hc : IsSpec c)
    (h : Takes fmt fmt') : Takes (c :: fmt) fmt' := by
  obtain ⟨spec, rfl, hspec⟩ := h
  refine ⟨c :: spec, rfl, fun d hd => ?_⟩
  cases hd with
  | head => exact hc
  | tail _ hd => exact hspec d hd

/-- No byte of a specification is the NUL, so the pointer can go on. -/
theorem advance_spec {fmt : List (BitVec 8)} (h : IsSpec (deref fmt)) :
    ∃ fmt', advance fmt = .ok fmt' ∧ Takes fmt fmt' := by
  cases fmt with
  | nil => exact absurd h (by decide)
  | cons c fmt => exact ⟨fmt, rfl, (Takes.refl fmt).cons h⟩

theorem skipAtoi_takes (fmt : List (BitVec 8)) (i : Int32) : Takes fmt (skipAtoi fmt i).1 := by
  induction fmt generalizing i with
  | nil => exact Takes.refl []
  | cons c fmt ih =>
    rw [skipAtoi]
    split
    · rename_i hdigit
      exact (ih _).cons (Or.inr (Or.inl hdigit))
    · exact Takes.refl _

/-! ## The parts of a directive -/

/-- The arguments run out, where there are fewer than `n`. -/
def Short (args : List U32) (n : Nat) : FormatFault → Prop :=
  fun e => e = .noArgs ∧ args.length < n

theorem Short.mono {args args' : List U32} {n n' : Nat}
    (h : args.length < n → args'.length < n') : ∀ e, Short args n e → Short args' n' e :=
  fun _ he => ⟨he.1, h he.2⟩

/-- The pointer goes on by bytes of a specification, and no more than `n` arguments are taken
besides one for each of them. -/
def Goes (n : Nat) (s s' : Scan) : Prop :=
  Takes s.fmt s'.fmt ∧ s.args.length + s'.fmt.length ≤ s'.args.length + s.fmt.length + n

/-- A part of a directive has been read. -/
def Reads (n : Nat) (s : Scan) : Except FormatFault Scan → Prop :=
  Ends (Short s.args (s.fmt.length + n)) (Goes n s)

theorem Takes.length_le {fmt fmt' : List (BitVec 8)} (h : Takes fmt fmt') :
    fmt'.length ≤ fmt.length := by
  obtain ⟨spec, rfl, _⟩ := h
  rw [List.length_append]
  omega

/-- No argument is taken. -/
theorem Goes.of_takes {s s' : Scan} (h : Takes s.fmt s'.fmt) (hargs : s'.args = s.args) :
    Goes 0 s s' := by
  have hlen := h.length_le
  refine ⟨h, ?_⟩
  rw [hargs]
  omega

theorem Goes.trans {n m : Nat} {s s' s'' : Scan} (h : Goes n s s') (h' : Goes m s' s'') :
    Goes (n + m) s s'' :=
  ⟨h.1.trans h'.1, by have := h.2; have := h'.2; omega⟩

theorem Goes.reads {n m : Nat} {s s' : Scan} {r : Except FormatFault Scan} (h : Goes n s s')
    (hr : Reads m s' r) : Reads (n + m) s r := by
  have hlen := h.2
  exact (hr.excused (Short.mono fun hlt => by omega)).mono fun _ h' => h.trans h'

theorem Reads.bind {n m : Nat} {s : Scan} {r : Except FormatFault Scan}
    {f : Scan → Except FormatFault Scan} (h : Reads n s r) (hf : ∀ s', Reads m s' (f s')) :
    Reads (n + m) s (r >>= f) :=
  Ends.bind (h.excused (Short.mono fun hlt => by omega)) fun s' hs' => hs'.reads (hf s')

theorem vaArg_ends (args : List U32) :
    Ends (Short args 1) (fun r => args = r.1 :: r.2) (vaArg args) := by
  cases args with
  | nil => exact ⟨rfl, Nat.zero_lt_one⟩
  | cons v args => exact rfl

/-- An argument is taken and a byte may be. -/
theorem vaArg_goes {s : Scan} {n : Nat} {f : U32 × List U32 → Except FormatFault Scan}
    (hn : 1 ≤ s.fmt.length + n)
    (hf : ∀ v args, s.args = v :: args → Reads n s (f (v, args))) :
    Reads n s (vaArg s.args >>= f) := by
  have hends : Ends (Short s.args (s.fmt.length + n)) _ (vaArg s.args) :=
    (vaArg_ends s.args).excused (Short.mono fun hlt => by omega)
  exact hends.bind fun r hr => hf r.1 r.2 hr

theorem scanFlags_ends {excuse : FormatFault → Prop} (c : BitVec 8) (fmt : List (BitVec 8))
    (flags : U32) : Ends excuse (fun r => Takes fmt r.1) (scanFlags (c :: fmt) flags) := by
  induction fmt generalizing c flags with
  | nil => exact Takes.refl []
  | cons d fmt ih =>
    rw [scanFlags]
    cases hflag : flagOf (deref (d :: fmt)) with
    | none => exact Takes.refl _
    | some flag =>
      have hspec : IsSpec d := Or.inl fun hnone => by cases hnone.symm.trans hflag
      exact (ih d _).mono fun r hr => hr.cons hspec

/-- A byte of a specification is taken with an argument, or one that is not there. -/
theorem Goes.of_args {s s' : Scan} {v : U32} {n : Nat} (h : Takes s.fmt s'.fmt)
    (hargs : s.args = v :: s'.args) (hlen : s'.fmt.length + 1 ≤ s.fmt.length + n) :
    Goes n s s' := by
  refine ⟨h, ?_⟩
  rw [hargs, List.length_cons]
  omega

theorem advance_length {fmt fmt' : List (BitVec 8)} (h : advance fmt = .ok fmt') :
    fmt.length = fmt'.length + 1 := by
  cases fmt with
  | nil => cases h
  | cons c fmt =>
    cases h
    rfl

/-- A width that is an argument may leave the pointer where it is. -/
theorem scanWidth_reads (s : Scan) : Reads 1 s (scanWidth s) := by
  have hnone : ∀ {s'}, Goes 0 s s' → Goes 1 s s' := fun h => ⟨h.1, Nat.le_succ_of_le h.2⟩
  rw [scanWidth]
  by_cases hdigit : IsDigit (deref s.fmt)
  · rw [if_pos hdigit]
    exact hnone (Goes.of_takes (skipAtoi_takes s.fmt 0) rfl)
  · rw [if_neg hdigit]
    by_cases hstar : deref s.fmt = ch '*'
    · rw [if_pos hstar]
      refine vaArg_goes (by omega) fun v args hargs => ?_
      have hspec : IsSpec (deref s.fmt) := Or.inr (Or.inr (Or.inl hstar))
      obtain ⟨fmt, hadvance, htakes⟩ := advance_spec hspec
      have hlen := advance_length hadvance
      dsimp only
      split
      · rw [hadvance]
        have hshort : fmt.length + 1 ≤ s.fmt.length + 1 := by omega
        exact (Goes.of_args htakes hargs hshort : Goes 1 s ⟨fmt, args, _, _, _⟩)
      · exact (Goes.of_args (Takes.refl _) hargs (le_refl _) : Goes 1 s ⟨s.fmt, args, _, _, _⟩)
    · rw [if_neg hstar]
      exact hnone (Goes.of_takes (Takes.refl _) rfl)

theorem scanDigits_reads (s : Scan) : Reads 0 s (scanDigits s) := by
  rw [scanDigits]
  by_cases hdigit : IsDigit (deref s.fmt)
  · rw [if_pos hdigit]
    exact Goes.of_takes (skipAtoi_takes s.fmt 0) rfl
  · rw [if_neg hdigit]
    by_cases hstar : deref s.fmt = ch '*'
    · have hspec : IsSpec (deref s.fmt) := Or.inr (Or.inr (Or.inl hstar))
      obtain ⟨fmt, hadvance, htakes⟩ := advance_spec hspec
      have hlen := advance_length hadvance
      rw [if_pos hstar, hadvance]
      refine vaArg_goes (by omega) fun v args hargs => ?_
      exact (Goes.of_args htakes hargs hlen.ge : Goes 0 s ⟨fmt, args, _, _, _⟩)
    · rw [if_neg hstar]
      exact Goes.of_takes (Takes.refl _) rfl

theorem scanPrecision_reads (s : Scan) : Reads 0 s (scanPrecision s) := by
  rw [scanPrecision]
  by_cases hdot : deref s.fmt = ch '.'
  · have hspec : IsSpec (deref s.fmt) := Or.inr (Or.inr (Or.inr (Or.inl hdot)))
    obtain ⟨fmt, hadvance, htakes⟩ := advance_spec hspec
    have hgoes : Goes 0 s { s with fmt := fmt } := Goes.of_takes htakes rfl
    rw [if_pos hdot, hadvance]
    refine hgoes.reads (m := 0) ((scanDigits_reads _).bind (m := 0) fun s' => ?_)
    split
    · exact Goes.of_takes (Takes.refl s'.fmt) rfl
    · exact Goes.of_takes (Takes.refl s'.fmt) rfl
  · rw [if_neg hdot]
    exact Goes.of_takes (Takes.refl _) rfl

theorem scanQualifier_reads (s : Scan) : Reads 0 s (scanQualifier s) := by
  rw [scanQualifier]
  split
  · rename_i h
    have hspec : IsSpec (deref s.fmt) := Or.inr (Or.inr (Or.inr (Or.inr h)))
    obtain ⟨fmt, hadvance, htakes⟩ := advance_spec hspec
    rw [hadvance]
    exact Goes.of_takes htakes rfl
  · exact Goes.of_takes (Takes.refl _) rfl

/-- A directive is read up to its conversion character or the NUL. -/
theorem scan_ends (c : BitVec 8) (fmt : List (BitVec 8)) (args : List U32) :
    Ends (Short args (fmt.length + 1)) (fun s => Takes fmt s.fmt ∧
      args.length + s.fmt.length ≤ s.args.length + fmt.length + 1) (scan (c :: fmt) args) := by
  refine (scanFlags_ends c fmt 0).bind fun r hr => ?_
  have hlen := hr.length_le
  have hreads : Reads (1 + (0 + 0)) ⟨r.1, args, r.2, -1, -1⟩ (_ >>= _) :=
    (scanWidth_reads _).bind fun s₁ => (scanPrecision_reads s₁).bind scanQualifier_reads
  refine (hreads.excused (Short.mono fun hlt => ?_)).mono fun s hs => ⟨hr.trans hs.1, ?_⟩
  · exact Nat.lt_of_lt_of_le hlt (Nat.add_le_add_right hlen 1)
  · have hspent : args.length + s.fmt.length ≤ s.args.length + r.1.length + (1 + (0 + 0)) := hs.2
    omega

/-! ## Conversions -/

/-- `number` knows the bases it is called with. -/
theorem number_isSome {base : Int32} (h : ¬ (base < 2 ∨ 36 < base)) (num : U32)
    (size precision : Int32) (type : U32) : (number num base size precision type).isSome := by
  rw [number]
  simp only [if_neg h, Option.isSome_some]

section
variable (mem : Bytes32) (s : Scan)

/-- A conversion takes an argument, or it takes none and puts no more than the `%` and the
character. -/
def Uses (c : Converted) : Prop :=
  (∃ v, s.args = v :: c.args) ∨
    s.args = c.args ∧ c.put.length ≤ if deref s.fmt = 0 then 1 else 2

theorem Uses.args {s : Scan} {c : Converted} (h : Uses s c) : c.args <:+ s.args := by
  obtain ⟨v, hv⟩ | ⟨hsame, _⟩ := h
  · exact ⟨[v], hv.symm⟩
  · rw [hsame]

/-- One argument at most. -/
theorem Uses.length_le {s : Scan} {c : Converted} (h : Uses s c) :
    s.args.length ≤ c.args.length + 1 := by
  obtain ⟨v, hv⟩ | ⟨hsame, _⟩ := h
  · rw [hv, List.length_cons]
  · rw [hsame]
    exact Nat.le_succ _

theorem convertNumber_ends {base : Int32} (h : ¬ (base < 2 ∨ 36 < base)) :
    Ends (Short s.args 1) (Uses s) (convertNumber mem s base) := by
  rw [convertNumber]
  refine (vaArg_ends s.args).bind fun r hr => ?_
  obtain ⟨bytes, hbytes⟩ := Option.isSome_iff_exists.mp
    (number_isSome h r.1 s.fieldWidth s.precision s.flags)
  dsimp only
  rw [hbytes]
  exact Or.inl ⟨r.1, hr⟩

theorem convertChar_ends : Ends (Short s.args 1) (Uses s) (convertChar mem s) := by
  rw [convertChar]
  exact (vaArg_ends s.args).bind fun r hr => Or.inl ⟨r.1, hr⟩

theorem convertString_ends : Ends (Short s.args 1) (Uses s) (convertString mem s) := by
  rw [convertString]
  exact (vaArg_ends s.args).bind fun r hr => Or.inl ⟨r.1, hr⟩

theorem convert_ends (count : Nat) : Ends (Short s.args 1) (Uses s) (convert mem s count) := by
  have h8 : ¬ ((8 : Int32) < 2 ∨ (36 : Int32) < 8) := by decide
  have h10 : ¬ ((10 : Int32) < 2 ∨ (36 : Int32) < 10) := by decide
  have h16 : ¬ ((16 : Int32) < 2 ∨ (36 : Int32) < 16) := by decide
  rw [convert]
  dsimp only
  refine .ite (convertChar_ends mem s) (.ite (convertString_ends mem s) ?_)
  refine .ite (convertNumber_ends mem s h8) (.ite ?_ ?_)
  · exact .ite (convertNumber_ends mem _ h16) (convertNumber_ends mem s h16)
  refine .ite (convertNumber_ends mem _ h16) (.ite (convertNumber_ends mem s h16) ?_)
  refine .ite (convertNumber_ends mem _ h10) (.ite (convertNumber_ends mem s h10) ?_)
  refine .ite ((vaArg_ends s.args).bind fun r hr => Or.inl ⟨r.1, hr⟩) (Or.inr ⟨rfl, ?_⟩)
  have hpercent : ∀ (q : Prop) [Decidable q], (if q then [ch '%'] else []).length ≤ 1 := by
    intro q _
    split
    · exact le_refl 1
    · exact Nat.zero_le 1
  have hlead := hpercent (deref s.fmt ≠ ch '%')
  by_cases hnul : deref s.fmt = 0
  · rw [if_pos hnul, if_neg (not_not.mpr hnul), List.append_nil]
    exact hlead
  · rw [if_neg hnul, if_pos hnul, List.length_append, List.length_singleton]
    omega

/-- At the NUL no argument is taken. -/
theorem convert_nul (hnul : s.fmt = []) (count : Nat) :
    convert mem s count = .ok { put := [ch '%'], mem := mem, args := s.args } := by
  have hzero : deref s.fmt = 0 := by
    rw [hnul]
    rfl
  rw [convert]
  simp only [hzero]
  rfl

end

/-! ## Turns -/

/-- What a turn of the outer loop takes from the format and what it puts in the buffer. -/
structure Turn where
  taken : List (BitVec 8)
  put : List (BitVec 8)

namespace Turn

/-- A byte outside the directives is copied. -/
def Literal (t : Turn) : Prop := ∃ c, c ≠ ch '%' ∧ t.taken = [c] ∧ t.put = [c]

/-- A directive ends with its conversion character, or is cut short by the end of the format. -/
def Directive (t : Turn) (rest : List (BitVec 8)) : Prop :=
  ∃ spec, (∀ c ∈ spec, IsSpec c) ∧
    ((∃ c, t.taken = ch '%' :: spec ++ [c]) ∨ t.taken = ch '%' :: spec ∧ rest = [])

structure Step (p : Printer) (t : Turn) (p' : Printer) : Prop where
  does : turn p = .ok p'
  taken : p.fmt = t.taken ++ p'.fmt
  put : p'.out = p.out ++ t.put
  kind : t.Literal ∨ t.Directive p'.fmt

theorem Step.taken_ne_nil {p p' : Printer} {t : Turn} (h : t.Step p p') : t.taken ≠ [] := by
  obtain ⟨c, _, htaken, _⟩ | ⟨spec, _, ⟨c, htaken⟩ | ⟨htaken, _⟩⟩ := h.kind
  all_goals
    rw [htaken]
    exact List.cons_ne_nil _ _

end Turn

/-- A turn takes no more arguments than it takes bytes. -/
theorem turn_ends {p : Printer} {c : BitVec 8} {rest : List (BitVec 8)} (hfmt : p.fmt = c :: rest)
    (hnul : 0 ∉ p.fmt) : Ends (Short p.args p.fmt.length) (fun p' => (∃ t : Turn, t.Step p p') ∧
      p.args.length + p'.fmt.length ≤ p'.args.length + p.fmt.length) (turn p) := by
  suffices h : Ends (Short p.args p.fmt.length) (fun p' => (∃ t : Turn, p.fmt = t.taken ++ p'.fmt ∧
      p'.out = p.out ++ t.put ∧ (t.Literal ∨ t.Directive p'.fmt)) ∧
      p.args.length + p'.fmt.length ≤ p'.args.length + p.fmt.length) (turn p) by
    refine h.self.mono fun p' hp' => ?_
    obtain ⟨hdoes, ⟨t, htaken, hput, hkind⟩, hargs⟩ := hp'
    exact ⟨⟨t, hdoes, htaken, hput, hkind⟩, hargs⟩
  have hc : deref p.fmt = c := by
    rw [hfmt]
    rfl
  have hlen : p.fmt.length = rest.length + 1 := by
    rw [hfmt]
    rfl
  rw [turn]
  by_cases hlit : deref p.fmt ≠ ch '%'
  · rw [if_pos hlit, hfmt]
    refine ⟨⟨⟨[c], [c]⟩, rfl, rfl, Or.inl ⟨c, hc ▸ hlit, rfl, rfl⟩⟩, ?_⟩
    exact Nat.add_le_add_left (Nat.le_succ rest.length) p.args.length
  · rw [if_neg hlit, hfmt]
    have hpercent : c = ch '%' := hc ▸ not_not.mp hlit
    refine (scan_ends c rest p.args).bind fun s hs => ?_
    obtain ⟨⟨spec, hspec, hall⟩, hspent⟩ := hs
    have hnul' : 0 ∉ s.fmt := fun h => hnul (by
      rw [hfmt, hspec]
      exact List.mem_cons_of_mem c (List.mem_append_right spec h))
    cases hs : s.fmt with
    | nil =>
      rw [hs] at hspent
      rw [convert_nul p.mem s hs]
      refine ⟨⟨⟨c :: spec, _⟩, ?_, rfl, Or.inr ⟨spec, hall, Or.inr ⟨by rw [hpercent], rfl⟩⟩⟩, ?_⟩
      · rw [hspec, hs]
        rfl
      · exact hspent
    | cons d fmt =>
      have hd : ¬ d = 0 := fun hd => hnul' (by rw [hs, hd]; exact List.mem_cons_self)
      have hderef : deref (d :: fmt) = d := rfl
      rw [hs, List.length_cons] at hspent
      have hends : Ends (Short p.args (c :: rest).length) _ (convert p.mem s p.out.length) :=
        (convert_ends p.mem s p.out.length).excused (Short.mono fun hlt => by
          rw [List.length_cons]
          omega)
      refine hends.bind fun r hr => ?_
      have hargs := hr.length_le
      rw [hderef, if_neg hd]
      refine ⟨⟨⟨c :: spec ++ [d], r.put⟩, ?_, rfl,
        Or.inr ⟨spec, hall, Or.inl ⟨d, by rw [hpercent]⟩⟩⟩, ?_⟩
      · rw [hspec, hs]
        simp
      · show p.args.length + fmt.length ≤ r.args.length + (rest.length + 1)
        omega

/-! ## The loop -/

def Turns (p : Printer) (t : Turn) (p' : Printer) : Prop := t.Step p p'

/-- The labels of a run are its format and its output, cut into pieces. -/
theorem run_pieces {p p' : Printer} {ts : List Turn} (h : Run Turns p ts p') :
    p.fmt = (ts.map Turn.taken).flatten ++ p'.fmt ∧ p'.out = p.out ++ (ts.map Turn.put).flatten ∧
      ts.length + p'.fmt.length ≤ p.fmt.length := by
  induction h with
  | nil => exact ⟨rfl, (List.append_nil _).symm, (Nat.zero_add _).le⟩
  | snoc _ hs ih =>
    obtain ⟨hfmt, hout, hlen⟩ := ih
    have hpos := List.length_pos_iff.mpr hs.taken_ne_nil
    have htaken := congrArg List.length hs.taken
    rw [List.length_append] at htaken
    refine ⟨?_, ?_, ?_⟩
    · rw [hfmt, hs.taken]
      simp
    · rw [hs.put, hout]
      simp
    · rw [List.length_append, List.length_singleton]
      omega

theorem printLoop_ends {n : Nat} {p : Printer} (hn : p.fmt.length ≤ n) (hnul : 0 ∉ p.fmt) :
    Ends (Short p.args p.fmt.length) (fun p' => p'.fmt = [] ∧ ∃ ts, Run Turns p ts p')
      (printLoop n p) := by
  have hdone : ∀ {p : Printer}, p.fmt = [] → deref p.fmt = 0 := fun h => by
    rw [h]
    rfl
  induction n generalizing p with
  | zero =>
    have hnil := List.length_eq_zero_iff.mp (Nat.le_zero.mp hn)
    rw [printLoop, if_pos (hdone hnil)]
    exact ⟨hnil, [], Run.nil⟩
  | succ n ih =>
    rw [printLoop]
    cases hfmt : p.fmt with
    | nil =>
      rw [if_pos (show deref [] = 0 from rfl)]
      exact ⟨hfmt, [], Run.nil⟩
    | cons c rest =>
      have hc : ¬ deref (c :: rest) = 0 := fun hc => hnul (by
        rw [hfmt, ← show c = 0 from hc]
        exact List.mem_cons_self)
      rw [if_neg hc, ← hfmt]
      refine (turn_ends hfmt hnul).bind fun p' hp' => ?_
      obtain ⟨⟨t, hs⟩, hargs⟩ := hp'
      have hpos := List.length_pos_iff.mpr hs.taken_ne_nil
      have htaken := congrArg List.length hs.taken
      rw [List.length_append] at htaken
      have hnul' : 0 ∉ p'.fmt := fun h => hnul (by
        rw [hs.taken]
        exact List.mem_append_right _ h)
      have hrest : Ends (Short p.args p.fmt.length) _ (printLoop n p') :=
        (ih (by omega) hnul').excused (Short.mono fun hlt => by omega)
      refine hrest.mono fun q hq => ?_
      obtain ⟨hnil, ts, hrun⟩ := hq
      exact ⟨hnil, t :: ts, Run.cons hs hrun⟩

/-- The outer loop comes to the NUL in the turns `ts`; what they put is what is stored before
the final NUL, and its length is what is returned. -/
structure Scans (mem : Bytes32) (fmt : List (BitVec 8)) (args : List U32) (ts : List Turn)
    (r : Printed) : Prop where
  run : ∃ p : Printer, p.fmt = [] ∧
    Run Turns { fmt := fmt, args := args, out := [], mem := mem } ts p
  turns : ts.length ≤ fmt.length
  taken : (ts.map Turn.taken).flatten = fmt
  buf : r.buf = (ts.map Turn.put).flatten ++ [0]
  ret : r.ret = Int32.ofNat (ts.map Turn.put).flatten.length
  count : (ts.map Turn.put).flatten.length < 2 ^ 31 →
    r.ret.toInt = (ts.map Turn.put).flatten.length

/-- Whatever the format is, it is scanned to its end and no further, unless the arguments do
not reach; and they do when there are as many as the format has bytes. -/
theorem vsprintf_scans (mem : Bytes32) {fmt : List (BitVec 8)} (hnul : 0 ∉ fmt) (args : List U32) :
    (vsprintf mem fmt args = .error .noArgs ∧ args.length < fmt.length) ∨
      ∃ r ts, vsprintf mem fmt args = .ok r ∧ Scans mem fmt args ts r := by
  obtain ⟨start, hstart⟩ :
      ∃ p : Printer, p = { fmt := fmt, args := args, out := [], mem := mem } := ⟨_, rfl⟩
  have hfmt : start.fmt = fmt := by rw [hstart]
  have hargs : start.args = args := by rw [hstart]
  have hends := printLoop_ends (p := start) (n := fmt.length) (by rw [hfmt]) (by rwa [hfmt])
  rw [vsprintf, ← hstart]
  cases hloop : printLoop fmt.length start with
  | error e =>
    rw [hloop, hfmt, hargs] at hends
    obtain ⟨he, hlt⟩ : e = .noArgs ∧ args.length < fmt.length := hends
    rw [he]
    exact Or.inl ⟨rfl, hlt⟩
  | ok p =>
    rw [hloop] at hends
    obtain ⟨hnil, ts, hrun⟩ := hends
    obtain ⟨htaken, hput, hlen⟩ := run_pieces hrun
    rw [hnil, List.append_nil, hfmt] at htaken
    rw [hstart, List.nil_append] at hput
    rw [hfmt] at hlen
    have hrun' := hstart ▸ hrun
    refine Or.inr ⟨_, ts, rfl, ⟨⟨p, hnil, hrun'⟩, by omega, htaken.symm, ?_, ?_, fun h => ?_⟩⟩
    · rw [← hput]
    · rw [← hput]
    · rw [← hput] at h ⊢
      exact Int32.toInt_ofNat_of_lt h

/-- A byte, a number and a directive that is cut short after its width. -/
theorem vsprintf_scans_cut :
    ∃ r ts, vsprintf (fun _ => 0) [ch 'a', ch '%', ch 'd', ch '%', ch '-', ch '5'] [42, 1] =
        .ok r ∧ r.args = [1] ∧ r.buf = [ch 'a', ch '4', ch '2', ch '%', 0] ∧
      Scans (fun _ => 0) [ch 'a', ch '%', ch 'd', ch '%', ch '-', ch '5'] [42, 1] ts r := by
  have hok : ((vsprintf (fun _ => 0) [ch 'a', ch '%', ch 'd', ch '%', ch '-', ch '5']
      [42, 1]).map fun r => (r.args, r.buf)) =
        .ok ([1], [ch 'a', ch '4', ch '2', ch '%', 0]) := by decide
  have hnul : 0 ∉ [ch 'a', ch '%', ch 'd', ch '%', ch '-', ch '5'] := by decide
  obtain ⟨r, ts, hr, hscans⟩ := (vsprintf_scans (fun _ => 0) hnul [42, 1]).resolve_left
    fun h => by
      rw [h.1] at hok
      cases hok
  rw [hr] at hok
  obtain ⟨hargs, hbuf⟩ := Prod.ext_iff.mp (Except.ok.inj hok)
  exact ⟨r, ts, hr, hargs, hbuf, hscans⟩

end Kernel
end CherryOS
