import CherryOS.Driver.CursorBounds

/-!
# The escape parser

The parser of `console_write` keeps its state from one call to the next, whichever terminal
the calls come from.  `ESC [` takes it to a state that no byte leaves: the three cases for
control sequences are empty.
-/

namespace CherryOS
namespace Driver

open Lib Kernel

namespace ParseState

/-- What a byte does to the state. -/
def next : ParseState → BitVec 8 → ParseState
  | .normal, c => if c = 0x1B then .esi else .normal
  | .esi, c => if c = 0x5B then .csi1 else .normal
  | state, _ => state

/-- The states that a control sequence's introducer does not lead to. -/
def Open (state : ParseState) : Prop := state = .normal ∨ state = .esi

instance (state : ParseState) : Decidable state.Open := by
  unfold Open
  infer_instance

theorem foldl_next_closed {state : ParseState} (h : ¬ state.Open) (bytes : List (BitVec 8)) :
    bytes.foldl next state = state := by
  induction bytes with
  | nil => rfl
  | cons c bytes ih =>
    have hstep : state.next c = state := by
      cases state with
      | normal => exact absurd (Or.inl rfl) h
      | esi => exact absurd (Or.inr rfl) h
      | csi1 | csi2 | csi3 => rfl
    rw [List.foldl_cons, hstep, ih]

theorem Open.next {state : ParseState} (h : state.Open) {c : BitVec 8}
    (hc : ¬ (state = .esi ∧ c = 0x5B)) : (state.next c).Open := by
  obtain rfl | rfl := h
  · rw [ParseState.next]
    split
    · exact Or.inr rfl
    · exact Or.inl rfl
  · rw [ParseState.next, if_neg fun h => hc ⟨rfl, h⟩]
    exact Or.inl rfl

/-- Bytes other than `ESC` are characters of the text. -/
theorem foldl_next_text {bytes : List (BitVec 8)} (h : ∀ c ∈ bytes, c ≠ 0x1B) :
    bytes.foldl next .normal = .normal := by
  induction bytes with
  | nil => rfl
  | cons c bytes ih =>
    rw [List.foldl_cons, next, if_neg (h c List.mem_cons_self)]
    exact ih fun c hc => h c (List.mem_cons_of_mem _ hc)

end ParseState

namespace Console

section
variable (s : Console)

theorem lf_state : s.lf.state = s.state := by
  rw [lf, scrollUp]
  split_ifs <;> rfl

theorem ri_state : s.ri.state = s.state := by
  rw [ri]
  split
  · rfl
  · rfl

theorem curGotoPos_state (x y : BitVec 8) : (s.curGotoPos x y).1.state = s.state := by
  rw [curGotoPos]
  split
  · rfl
  · rfl

theorem printChar_state (c : BitVec 8) : (s.printChar c).state = s.state := by
  rw [printChar]
  split
  · exact lf_state _
  · rfl

theorem normalByte_state (erase c : BitVec 8) (h : s.state = .normal) :
    (s.normalByte erase c).state = s.state.next c := by
  rw [h, ParseState.next]
  unfold normalByte
  split_ifs with hprint hesc hesc hlf hcr hdel hbs htab
  · exfalso
    rw [hesc] at hprint
    exact absurd hprint.1 (by decide)
  · rw [printChar_state, h]
  · rfl
  · rw [lf_state, h]
  · exact h
  · rw [del]
    split
    · exact h
    · exact h
  · rw [backspace]
    split
    · exact h
    · exact h
  · rw [horizontalTab]
    split
    · rw [lf_state]
      exact h
    · exact h
  · exact h

theorem escapeByte_state (c : BitVec 8) (h : s.state = .esi) :
    (s.escapeByte c).state = s.state.next c := by
  rw [h, ParseState.next]
  unfold escapeByte
  simp only
  split_ifs
  · rfl
  · rw [curGotoPos_state]
  · rw [lf_state]
  · rw [ri_state]
  · rfl
  · rw [curGotoPos_state]
  · rfl

theorem writeByte_state (erase c : BitVec 8) : (s.writeByte erase c).state = s.state.next c := by
  obtain ⟨hstate, hbyte⟩ | ⟨hstate, hbyte⟩ | ⟨hnormal, hesi, hbyte⟩ := s.writeByte_cases erase c
  · rw [hbyte]
    exact normalByte_state _ _ _ hstate
  · rw [hbyte]
    exact escapeByte_state _ _ hstate
  · rw [hbyte]
    exact (ParseState.foldl_next_closed (not_or.mpr ⟨hnormal, hesi⟩) [c]).symm

end

/-! ## Calls by any terminals -/

/-- One byte after another, each with the erase character of the terminal it comes from. -/
def feedEach (s : Console) (bytes : List (BitVec 8 × BitVec 8)) : Console :=
  bytes.foldl (fun s p => s.writeByte p.1 p.2) s

/-- The states in which calls of `console_write` for any terminals leave a console. -/
inductive Sent (s₀ : Console) : List (BitVec 8) → Console → Prop
  | start : Sent s₀ [] s₀
  | call {bytes : List (BitVec 8)} {s : Console} (tty : TtyStruct) (h : Sent s₀ bytes s) :
      Sent s₀ (bytes ++ tty.writeQ.pending) (s.consoleWrite tty).2.1

variable {s₀ s : Console} {bytes : List (BitVec 8)}

theorem Written.sent {erase : BitVec 8} (h : Written erase s₀ bytes s) : Sent s₀ bytes s := by
  induction h with
  | start => exact .start
  | call tty _ _ ih => exact ih.call tty

theorem Sent.trans {rest : List (BitVec 8)} {t : Console} (h : Sent s₀ bytes s)
    (ht : Sent s rest t) : Sent s₀ (bytes ++ rest) t := by
  induction ht with
  | start =>
    rw [List.append_nil]
    exact h
  | call tty _ ih =>
    rw [← List.append_assoc]
    exact ih.call tty

/-- Any bytes can be sent. -/
theorem exists_sent (s₀ : Console) (bytes : List (BitVec 8)) : ∃ s, Sent s₀ bytes s :=
  ⟨_, (written_feed 0 s₀ bytes).sent⟩

theorem Sent.eq_feedEach (h : Sent s₀ bytes s) :
    ∃ typed : List (BitVec 8 × BitVec 8), typed.map Prod.snd = bytes ∧ s = s₀.feedEach typed := by
  induction h with
  | start => exact ⟨[], rfl, rfl⟩
  | @call bytes s tty _ ih =>
    obtain ⟨typed, hbytes, hs⟩ := ih
    refine ⟨typed ++ tty.writeQ.pending.map fun c => (tty.cCc V_ERASE, c), ?_, ?_⟩
    · rw [List.map_append, hbytes, List.map_map]
      exact congrArg _ (List.map_id _)
    · rw [consoleWrite_eq, feed, feedEach, List.foldl_append, List.foldl_map, hs]
      rfl

theorem feedEach_state (s : Console) (typed : List (BitVec 8 × BitVec 8)) :
    (s.feedEach typed).state = (typed.map Prod.snd).foldl ParseState.next s.state := by
  induction typed generalizing s with
  | nil => rfl
  | cons p typed ih =>
    rw [List.map_cons, List.foldl_cons, ← writeByte_state s p.1]
    exact ih _

/-- The state depends on the bytes and on nothing else. -/
theorem Sent.state (h : Sent s₀ bytes s) : s.state = bytes.foldl ParseState.next s₀.state := by
  obtain ⟨typed, rfl, rfl⟩ := h.eq_feedEach
  exact feedEach_state _ _

/-! ## Printing again -/

/-- A displayable character, as `console_write` tests it. -/
def Printable (c : BitVec 8) : Prop := 0x1F < c.toInt ∧ c.toInt < 0x7F

/-- The cell before the cursor is the last one stored, and it shows the character. -/
structure Printed (s : Console) (c : BitVec 8) : Prop where
  stored : s.store.stored.head? = some (s.curPosMem - 2)
  cell : readCell s.store.mem (s.curPosMem - 2) = 0x0700 + c.setWidth 16

/-- The cell before the cursor is on the screen. -/
def AfterShown (s : Console) : Prop := 0 < s.curPosX.toNat ∧ s.curPosY.toNat < DISPLAY_LINE_NR

/-- Some bytes take the parser to where every displayable character is printed, whatever calls
they and the character come in. -/
def CanPrint (s : Console) : Prop :=
  ∃ tail, ∀ c t, Printable c → Sent s (tail ++ [c]) t →
    t.Printed c ∧ (s.Coherent → t.AfterShown)

theorem printChar_printed (s : Console) (c : BitVec 8) : (s.printChar c).Printed c := by
  have hback : ∀ a : U32, a + 2 - 2 = a := fun a => add_sub_cancel_right a 2
  constructor
  · rw [printChar, hback]
    rfl
  · rw [printChar, hback]
    exact readCell_writeCell _ _ _

theorem Printable.writeByte {c : BitVec 8} (hc : Printable c) (h : s.state = .normal)
    (erase : BitVec 8) : s.writeByte erase c = s.forget.printChar c := by
  rw [Console.writeByte, h]
  exact if_pos hc

theorem ri_y_lt (h : s.curPosY.toNat ≤ DISPLAY_LINE_NR) : s.ri.curPosY.toNat < DISPLAY_LINE_NR := by
  have hlines : DISPLAY_LINE_NR = 25 := rfl
  rw [ri]
  split
  · rename_i hy
    have hpos : 0 < s.curPosY.toNat := hy
    have hsub : (s.curPosY - 1).toNat = s.curPosY.toNat - 1 :=
      (toNat_sub_one fun h0 => by simp [h0] at hpos).1
    show (s.curPosY - 1).toNat < _
    omega
  · rename_i hy
    have hzero : ¬ 0 < s.curPosY.toNat := hy
    show s.curPosY.toNat < _
    omega

/-- A carriage return and a reverse line feed. -/
def home : List (BitVec 8) := [0x0D, 0x1B, 0x4D]

theorem feedEach_home (h : s.state = .normal) {typed : List (BitVec 8 × BitVec 8)}
    (htyped : typed.map Prod.snd = home) :
    s.feedEach typed = ri { s.forget.cr with state := .normal } := by
  obtain ⟨a, b, c, rfl⟩ : ∃ a b c, typed = [a, b, c] :=
    List.length_eq_three.mp (by rw [← List.length_map Prod.snd, htyped]; rfl)
  obtain ⟨ha, hb, hc⟩ : a.2 = 0x0D ∧ b.2 = 0x1B ∧ c.2 = 0x4D := by
    simpa [home] using htyped
  show ((s.writeByte a.1 a.2).writeByte b.1 b.2).writeByte c.1 c.2 = _
  have hcr : s.writeByte a.1 0x0D = s.forget.cr := by
    rw [Console.writeByte, h]
    rfl
  have hesc : s.forget.cr.writeByte b.1 0x1B = { s.forget.cr with state := .esi } := by
    rw [Console.writeByte, show s.forget.cr.state = .normal from h]
    rfl
  rw [ha, hb, hc, hcr, hesc]
  rfl

/-- After it the cursor stands on the screen at the start of a line. -/
theorem canPrint_of_normal (h : s.state = .normal) {c : BitVec 8} (hc : Printable c)
    {typed : List (BitVec 8 × BitVec 8)} (htyped : typed.map Prod.snd = home ++ [c]) :
    (s.feedEach typed).Printed c ∧ (s.Coherent → (s.feedEach typed).AfterShown) := by
  obtain ⟨before, last, rfl, hbefore, hlast⟩ := List.map_eq_append_iff.mp htyped
  obtain ⟨p, rfl, rfl⟩ : ∃ p, last = [p] ∧ p.2 = c := by
    obtain ⟨p, rest, rfl, hp, hrest⟩ := List.map_eq_cons_iff.mp hlast
    exact ⟨p, by rw [List.map_eq_nil_iff.mp hrest], hp⟩
  obtain ⟨t, ht⟩ : ∃ t, t = s.feedEach before := ⟨_, rfl⟩
  have hfeed : s.feedEach (before ++ [p]) = t.forget.printChar p.2 := by
    have hstate : t.state = .normal := by
      rw [ht, feedEach_home h hbefore, ri_state]
    rw [feedEach, List.foldl_append, ← hc.writeByte hstate p.1, ht]
    rfl
  rw [hfeed]
  refine ⟨printChar_printed _ _, fun hcoherent => ?_⟩
  have hx : t.curPosX = 0 := by
    rw [ht, feedEach_home h hbefore, ri]
    split
    · rfl
    · rfl
  have hcols : t.displayCharPerLine = s.displayCharPerLine := by
    rw [ht, feedEach_home h hbefore, ri]
    split
    · rfl
    · rfl
  have hy : t.curPosY.toNat < DISPLAY_LINE_NR := by
    rw [ht, feedEach_home h hbefore]
    exact ri_y_lt hcoherent.y_le
  have hwide := hcoherent.wide
  have hroom : ¬ t.displayCharPerLine ≤ t.curPosX := by
    rw [hcols, hx, BitVec.le_def]
    exact Nat.not_le.mpr (Nat.lt_of_lt_of_le (by decide) hwide)
  rw [printChar, if_neg (show ¬ t.forget.displayCharPerLine ≤ t.forget.curPosX from hroom)]
  refine ⟨?_, hy⟩
  show 0 < (t.curPosX + 1).toNat
  rw [hx]
  decide

theorem canPrint_of_open (h : s.state.Open) : s.CanPrint := by
  obtain h | h := h
  · refine ⟨home, fun c t hc ht => ?_⟩
    obtain ⟨typed, htyped, rfl⟩ := ht.eq_feedEach
    exact canPrint_of_normal h hc htyped
  · -- `ESC Z` does nothing
    refine ⟨0x5A :: home, fun c t hc ht => ?_⟩
    obtain ⟨typed, htyped, rfl⟩ := ht.eq_feedEach
    obtain ⟨p, typed, rfl, hp, htyped⟩ := List.map_eq_cons_iff.mp htyped
    have hstep : s.writeByte p.1 p.2 = { s.forget with state := .normal } := by
      rw [hp, Console.writeByte, h]
      rfl
    have hrest := canPrint_of_normal (s := s.writeByte p.1 p.2) (by rw [hstep]) hc htyped
    exact ⟨hrest.1, fun hcoherent => hrest.2 (hcoherent.shows_writeByte p.1 p.2).coherent⟩

/-- Nothing is ever stored again. -/
theorem not_canPrint_of_closed (h : ¬ s.state.Open) : ¬ s.CanPrint := by
  rintro ⟨tail, htail⟩
  obtain ⟨t, ht⟩ := exists_sent s (tail ++ [0x41])
  have hprinted := (htail 0x41 t ⟨by decide, by decide⟩ ht).1.stored
  obtain ⟨typed, htyped, rfl⟩ := ht.eq_feedEach
  obtain ⟨before, last, rfl, -, hlast⟩ := List.map_eq_append_iff.mp htyped
  obtain ⟨p, rest, rfl, -, hrest⟩ := List.map_eq_cons_iff.mp hlast
  rw [List.map_eq_nil_iff] at hrest
  have hstate : ¬ (s.feedEach before).state.Open := by
    rw [feedEach_state, ParseState.foldl_next_closed h]
    exact h
  have hlast : s.feedEach (before ++ p :: rest) = (s.feedEach before).forget := by
    obtain ⟨hnormal, -⟩ | ⟨hesi, -⟩ | ⟨-, -, hbyte⟩ := (s.feedEach before).writeByte_cases p.1 p.2
    · exact absurd (Or.inl hnormal) hstate
    · exact absurd (Or.inr hesi) hstate
    · rw [hrest, feedEach, List.foldl_append, ← hbyte]
      rfl
  rw [hlast] at hprinted
  cases hprinted

/-! ## Streams -/

/-- The bytes of a control sequence between its introducer and its final byte. -/
def Parameter (c : BitVec 8) : Prop := 0x20 ≤ c ∧ c ≤ 0x3F

def Final (c : BitVec 8) : Prop := 0x40 ≤ c ∧ c ≤ 0x7E

/-- `ESC [`, parameters and a final byte -/
inductive Sequence : List (BitVec 8) → Prop
  | mk {params : List (BitVec 8)} {final : BitVec 8} (hparams : ∀ c ∈ params, Parameter c)
      (hfinal : Final final) : Sequence (0x1B :: 0x5B :: params ++ [final])

theorem consoleInit_state (bios : Bios) (mem : Bytes32) :
    ((static mem).consoleInit bios).state = .normal :=
  curGotoPos_state _ _ _

theorem Sequence.next_esi {sequence : List (BitVec 8)} (h : Sequence sequence) :
    sequence.foldl ParseState.next .esi = .normal := by
  obtain ⟨hparams, hfinal⟩ := h
  refine ParseState.foldl_next_text fun c hc => ?_
  rintro rfl
  obtain hc | hc := List.mem_append.mp hc
  · obtain hc | hc := List.mem_cons.mp hc
    · exact absurd hc (by decide)
    · exact absurd (hparams _ hc).1 (by decide)
  · rw [← List.mem_singleton.mp hc] at hfinal
    exact absurd hfinal.1 (by decide)

/-- The states after a stream in which no control sequence is begun. -/
theorem open_of_none {s₀ : Console} (h : s₀.state.Open) {bytes : List (BitVec 8)}
    (hno : ∀ p s, p ++ [0x5B] <+: bytes → Sent s₀ p s → s.state ≠ .esi) {p : List (BitVec 8)}
    (hp : p <+: bytes) {s : Console} (hs : Sent s₀ p s) : s.state.Open := by
  induction p using List.reverseRecOn generalizing s with
  | nil =>
    rw [hs.state]
    exact h
  | append_singleton p c ih =>
    obtain ⟨t, ht⟩ := exists_sent s₀ p
    have hstep : s.state = t.state.next c := by
      rw [hs.state, List.foldl_append, ← ht.state]
      rfl
    rw [hstep]
    refine (ih ((List.prefix_append p [c]).trans hp) ht).next ?_
    rintro ⟨hesi, rfl⟩
    exact hno p t hp ht hesi

/-- A stream leaves the parser able to print, and its sequences end, exactly if none is begun. -/
theorem unwedged_iff (bios : Bios) (mem : Bytes32) (bytes : List (BitVec 8)) :
    (∀ p s, p <+: bytes → Sent ((static mem).consoleInit bios) p s → s.CanPrint) ∧
        (∀ p sequence s, p ++ sequence <+: bytes → Sequence sequence →
          Sent ((static mem).consoleInit bios) (p ++ sequence) s → s.state = .normal) ↔
      ∀ p s, p ++ [0x5B] <+: bytes → Sent ((static mem).consoleInit bios) p s →
        s.state ≠ .esi := by
  have hstart : ((static mem).consoleInit bios).state.Open := Or.inl (consoleInit_state bios mem)
  constructor
  · rintro ⟨hprint, -⟩ p s hp hs hesi
    obtain ⟨t, ht⟩ := exists_sent s [0x5B]
    refine not_canPrint_of_closed ?_ (hprint _ t hp (hs.trans ht))
    rw [ht.state, hesi]
    decide
  · intro hno
    refine ⟨fun p s hp hs => canPrint_of_open (open_of_none hstart hno hp hs), ?_⟩
    intro p sequence s hp hseq hs
    obtain ⟨t, ht⟩ := exists_sent ((static mem).consoleInit bios) p
    have hafter : s.state = sequence.foldl ParseState.next t.state := by
      rw [hs.state, List.foldl_append, ← ht.state]
    have hopen := open_of_none hstart hno ((List.prefix_append p sequence).trans hp) ht
    rw [hafter]
    obtain hnormal | hesi := hopen
    · -- the sequence would be begun
      obtain ⟨hparams, hfinal⟩ := hseq
      obtain ⟨u, hu⟩ := exists_sent t [0x1B]
      refine absurd ?_ (hno (p ++ [0x1B]) u ?_ (ht.trans hu))
      · rw [hu.state, hnormal]
        rfl
      · refine List.IsPrefix.trans ?_ hp
        rw [List.append_assoc, List.prefix_append_right_inj]
        exact ⟨_, rfl⟩
    · rw [hesi]
      exact hseq.next_esi

/-- `ESC [ H` does not end, and nothing is printed after it. -/
theorem cursorHome_wedges :
    Sequence [0x1B, 0x5B, 0x48] ∧
      ∃ s, Sent ((static fun _ => 0).consoleInit lastLine) [0x1B, 0x5B, 0x48] s ∧
        s.state = .csi1 ∧ ¬ s.CanPrint := by
  obtain ⟨s, hs⟩ := exists_sent ((static fun _ => 0).consoleInit lastLine) [0x1B, 0x5B, 0x48]
  have hstate : s.state = .csi1 := by
    rw [hs.state, consoleInit_state]
    rfl
  refine ⟨@Sequence.mk [] 0x48 (fun _ h => nomatch h) ⟨by decide, by decide⟩, s, hs, hstate, ?_⟩
  refine not_canPrint_of_closed ?_
  rw [hstate]
  decide

end Console

end Driver
end CherryOS
