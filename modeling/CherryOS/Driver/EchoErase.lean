import CherryOS.Driver.LineDiscipline
import CherryOS.Driver.RubOut

/-!
# Erasing what was echoed

Keys come one by one, and `copy_to_cooked` and `console_write` are called in between in any
order.  Characters that are typed and then all erased have been echoed and taken back, but
the console deletes on the character `c_cc[V_ERASE]`, and the terminal writes `ASC_DEL`.
-/

namespace CherryOS
namespace Driver

open Kernel Console

/-! ## Mapped characters -/

namespace Termios

def cookEchoes (t : Termios) : Cooked → List (BitVec 8) → List (BitVec 8)
  | _, [] => []
  | s, c :: cs => t.cookEcho s.line c ++ t.cookEchoes (t.coded.cook s c) cs

/-- The keys that take `typed` back: `V_ERASE` once for each character, or `V_KILL` when there
is nothing else on the line. -/
def Erasing (t : Termios) (line typed erasing : List (BitVec 8)) : Prop :=
  (erasing.length = typed.length ∧ ∀ e ∈ erasing, t.isCc V_ERASE e ∧ ¬ t.isCc V_KILL e) ∨
    t.coded.Ended line ∧ ∃ k, erasing = [k] ∧ t.isCc V_KILL k

variable {t : Termios} {s : Cooked} {c : BitVec 8} {line typed erasing : List (BitVec 8)}

theorem echoes_eq (s : Cooked) (bytes : List (BitVec 8)) :
    t.echoes s bytes = t.cookEchoes s (bytes.filterMap t.mapChar) := by
  induction bytes generalizing s with
  | nil => rfl
  | cons b bytes ih =>
    have hcoded : t.coded.map b = t.mapChar b := rfl
    rw [echoes, ih, stepEcho, Discipline.step, hcoded]
    cases hmap : t.mapChar b with
    | none => rw [List.filterMap_cons_none hmap, List.nil_append]
    | some c => rw [List.filterMap_cons_some hmap, cookEchoes]

theorem cookEcho_of_plain (h : t.Plain c) : t.cookEcho line c = t.echo c := by
  have hedits := h.not_edits
  simp only [Discipline.Edits, coded, decide_eq_true_eq, not_or] at hedits
  rw [cookEcho, if_neg hedits.1, if_neg hedits.2.1, if_neg hedits.2.2.1, if_neg hedits.2.2.2,
    ite_self]

theorem cookEchoes_plain (h : ∀ c ∈ typed, t.Plain c) (rest : List (BitVec 8)) :
    t.cookEchoes s (typed ++ rest) =
      typed.flatMap t.echo ++ t.cookEchoes { s with line := s.line ++ typed } rest := by
  induction typed generalizing s with
  | nil => rw [List.append_nil]; rfl
  | cons c typed ih =>
    have hc := h c List.mem_cons_self
    have hrest := ih (s := { s with line := s.line ++ [c] })
      fun c' hc' => h c' (List.mem_cons_of_mem c hc')
    rw [List.cons_append, cookEchoes, cookEcho_of_plain hc,
      Discipline.cook_of_not_edits fun hboth => hc.not_edits hboth.2, hrest, List.flatMap_cons,
      List.append_assoc, List.append_assoc]
    rfl

/-- One key of the two kinds. -/
theorem cookEchoes_eraseKey (hcanon : t.cIflag &&& L_ICANON ≠ 0) {e : BitVec 8}
    (he : t.isCc V_ERASE e ∧ ¬ t.isCc V_KILL e) (hc : t.Plain c) (rest : List (BitVec 8)) :
    t.cookEchoes { s with line := line ++ [c] } (e :: rest) =
      t.rubOut c ++ t.cookEchoes { s with line := line } rest := by
  have hcanon' := coded_canon.mpr hcanon
  have hkill : ¬ t.coded.isCc V_KILL e := fun hcc => he.2 (decide_eq_true_iff.mp hcc)
  have herase : t.coded.isCc V_ERASE e := decide_eq_true_iff.mpr he.1
  rw [cookEchoes, cookEcho, if_pos hcanon', if_neg he.2, if_pos he.1, eraseEcho_append,
    if_neg hc.not_ends, Discipline.cook, if_pos hcanon', if_neg hkill, if_pos herase,
    Discipline.erase_append, if_neg hc.not_ends]

/-- One after another. -/
theorem cookEchoes_erase (hcanon : t.cIflag &&& L_ICANON ≠ 0) (hplain : ∀ c ∈ typed, t.Plain c)
    (hlength : erasing.length = typed.length)
    (hkeys : ∀ e ∈ erasing, t.isCc V_ERASE e ∧ ¬ t.isCc V_KILL e) :
    t.cookEchoes { s with line := line ++ typed } erasing = typed.reverse.flatMap t.rubOut := by
  induction typed using List.reverseRecOn generalizing erasing with
  | nil =>
    rw [List.length_eq_zero_iff.mp hlength]
    rfl
  | append_singleton typed c ih =>
    have hc := hplain c (List.mem_append_right _ (List.mem_singleton_self c))
    cases erasing with
    | nil =>
      rw [List.length_append] at hlength
      cases hlength
    | cons e erasing =>
      rw [List.length_cons, List.length_append, List.length_singleton] at hlength
      have hrest := ih (fun c' hc' => hplain c' (List.mem_append_left _ hc'))
        (Nat.succ.inj hlength) fun e' he' => hkeys e' (List.mem_cons_of_mem e he')
      rw [← List.append_assoc, cookEchoes_eraseKey hcanon (hkeys e List.mem_cons_self) hc, hrest,
        List.reverse_concat, List.flatMap_cons]

/-- All at once. -/
theorem killEcho_plain (hplain : ∀ c ∈ typed, t.Plain c) (hended : t.coded.Ended line) :
    t.killEcho (line ++ typed) = typed.reverse.flatMap t.rubOut := by
  induction typed using List.reverseRecOn with
  | nil =>
    rw [List.append_nil, killEcho_of_ended hended]
    rfl
  | append_singleton typed c ih =>
    have hc := hplain c (List.mem_append_right _ (List.mem_singleton_self c))
    rw [← List.append_assoc, killEcho_append, if_neg hc.not_ends, List.reverse_concat,
      List.flatMap_cons, ih fun c' hc' => hplain c' (List.mem_append_left _ hc')]

theorem cookEchoes_erasing (hcanon : t.cIflag &&& L_ICANON ≠ 0) (hplain : ∀ c ∈ typed, t.Plain c)
    (h : t.Erasing line typed erasing) :
    t.cookEchoes { s with line := line ++ typed } erasing = typed.reverse.flatMap t.rubOut := by
  rcases h with ⟨hlength, hkeys⟩ | ⟨hended, k, rfl, hkill⟩
  · exact cookEchoes_erase hcanon hplain hlength hkeys
  · rw [cookEchoes, cookEchoes, List.append_nil, cookEcho, if_pos (coded_canon.mpr hcanon),
      if_pos hkill, killEcho_plain hplain hended]

end Termios

/-! ## Sessions -/

namespace Terminal

/-- The keys come in order, each when `read_q` has room for it. -/
inductive Session (s : Terminal) : List (BitVec 8) → Terminal → Prop
  | start : Session s [] s
  | key {keys : List (BitVec 8)} {s' : Terminal} (h : Session s keys s')
      (hroom : ¬ s'.tty.readQ.FULL) (b : BitVec 8) :
      Session s (keys ++ [b]) (s'.withReadQ (s'.tty.readQ.put b))
  | cook {keys : List (BitVec 8)} {s' : Terminal} (h : Session s keys s') :
      Session s keys s'.copyToCooked
  | flush {keys : List (BitVec 8)} {s' : Terminal} (h : Session s keys s') :
      Session s keys s'.write

variable {s s' : Terminal} {keys typed erasing : List (BitVec 8)}

theorem Session.cooks (h : s.Session keys s') (hvalid : s.Valid) (hempty : s.tty.readQ.EMPTY) :
    ∃ p, keys = p ++ s'.tty.readQ.pending ∧ s.Cooks s' p := by
  induction h with
  | start => exact ⟨[], ((TtyQueue.empty_iff hvalid.readQ).mp hempty).symm, Cooks.refl hvalid⟩
  | @key keys s' _ hroom b ih =>
    obtain ⟨p, hkeys, hcooks⟩ := ih
    have hput := TtyQueue.pending_put hcooks.valid.readQ hroom b
    refine ⟨p, ?_, ⟨hcooks.valid.readQ.put b, hcooks.valid.writeQ, hcooks.valid.secondary⟩,
      hcooks.termios, hcooks.cooked, hcooks.overrun, hcooks.shown⟩
    rw [hkeys, List.append_assoc]
    exact congrArg (p ++ ·) hput.symm
  | cook _ ih =>
    obtain ⟨p, hkeys, hcooks⟩ := ih
    obtain ⟨p', htakes⟩ := takes_copyToCooked hcooks.valid
    refine ⟨p ++ p', ?_, hcooks.trans htakes.toCooks⟩
    rw [hkeys, htakes.taken, List.append_assoc]
  | flush _ ih =>
    obtain ⟨p, hkeys, hcooks⟩ := ih
    have hgoes := goes_write hcooks.valid
    refine ⟨p, hkeys, hgoes.valid, hgoes.termios.trans hcooks.termios,
      hgoes.cooked.trans hcooks.cooked, fun hover => hcooks.overrun (hgoes.overrun hover),
      fun hover => ?_⟩
    exact (hgoes.shown hover).trans (hcooks.shown (hgoes.overrun hover))

/-- Characters are typed in front of blank cells of one row, echoed, and erased again. -/
structure TypedErased (s s' : Terminal) (keys typed erasing : List (BitVec 8)) : Prop where
  valid : s.Valid
  coherent : s.shown.Coherent
  normal : s.shown.state = .normal
  canon : s.tty.termios.cIflag &&& L_ICANON ≠ 0
  echo : s.tty.termios.cLflag &&& L_ECHO ≠ 0
  empty : s.tty.readQ.EMPTY
  session : s.Session keys s'
  done : s'.tty.readQ.EMPTY
  in_time : s'.overrun = false
  mapped : keys.filterMap s.tty.termios.mapChar = typed ++ erasing
  plain : ∀ c ∈ typed, s.tty.termios.Plain c
  erasing : s.tty.termios.Erasing s.cooked.line typed erasing
  room : s.shown.screen.Room (typed.map width).sum

theorem TypedErased.shown_eq (h : TypedErased s s' keys typed erasing) :
    s'.shown = s.shown.feed (s.tty.termios.cCc V_ERASE)
      (typed.flatMap s.tty.termios.echo ++ typed.reverse.flatMap s.tty.termios.rubOut) := by
  obtain ⟨p, hkeys, hcooks⟩ := h.session.cooks h.valid h.empty
  rw [(TtyQueue.empty_iff hcooks.valid.readQ).mp h.done, List.append_nil] at hkeys
  rw [hcooks.shown h.in_time, ← hkeys, Termios.echoes_eq, h.mapped,
    Termios.cookEchoes_plain h.plain, Termios.cookEchoes_erasing h.canon h.plain h.erasing]

theorem masked_screen (s : Console) : s.screen.Masked := fun _ _ h => if_neg h

/-- The screen is what it was exactly when the echo is undone. -/
theorem erase_undoes_echo_iff (h : TypedErased s s' keys typed erasing) :
    SameScreen s.shown s'.shown ↔
      Undone (s.tty.termios.cCc V_ERASE) s.shown.curPosX.toNat typed := by
  have hscreen := (h.coherent.shows_feed (s.tty.termios.cCc V_ERASE)
    (typed.flatMap s.tty.termios.echo ++ typed.reverse.flatMap s.tty.termios.rubOut)).screen
  rw [sameScreen_iff, h.shown_eq, hscreen, eq_comm]
  exact write_undo_iff (masked_screen s.shown) h.normal h.echo h.plain h.room

/-- A blank console with its cursor at the start of a line. -/
def blankConsole : Console :=
  { console80 0xB8000 with
    store := { mem := fun a => if a.getLsbD 0 then 0x07 else 0x20, stored := [] } }

/-- The kernel's terminal with its canonical editing in effect, and an erase character. -/
def editing (erase : BitVec 8) : Terminal :=
  { Terminal.typed
      { kernelTermios with
        cIflag := I_CRNL ||| L_ICANON
        cCc := fun i => if i = V_ERASE then erase else kernelTermios.cCc i } [] [] with
    console := blankConsole }

/-- A key and the interrupt after it. -/
def press (b : BitVec 8) (s : Terminal) : Terminal :=
  (s.withReadQ (s.tty.readQ.put b)).copyToCooked

/-- `a` and a control character are typed and erased, and the console takes what is left. -/
def retyped (erase : BitVec 8) : Terminal :=
  (press erase (press erase (press 0x01 (press 0x61 (editing erase))))).write

theorem blankConsole_coherent : blankConsole.Coherent :=
  ⟨by decide, by decide, by decide, by decide, by decide, by decide, by decide, by decide⟩

theorem blankConsole_room : blankConsole.screen.Room 3 := by
  have hx : blankConsole.screen.x = 0 := rfl
  refine ⟨by decide, fun k _ hk hshown => ?_⟩
  have hcell : ∀ k < 3, blankConsole.shownCell 24 k = BLANK := by decide +kernel
  have hgrid : blankConsole.screen.grid 24 k = blankConsole.shownCell 24 k := if_pos hshown
  exact hgrid.trans (hcell k (by omega))

theorem shown_editing (erase : BitVec 8) : (editing erase).shown = blankConsole := by
  have hnil : TtyQueue.empty.pending = [] := by decide
  show blankConsole.feed _ TtyQueue.empty.pending = _
  rw [hnil]
  rfl

variable {e : BitVec 8}

theorem session_retyped (he : e = ASC_DEL ∨ e = 0x7F) :
    (editing e).Session [0x61, 0x01, e, e] (retyped e) := by
  have h0 : ¬ (editing e).tty.readQ.FULL := show ¬ TtyQueue.empty.FULL by decide
  have h1 : ¬ (press 0x61 (editing e)).tty.readQ.FULL := by
    rcases he with rfl | rfl <;> decide +kernel
  have h2 : ¬ (press 0x01 (press 0x61 (editing e))).tty.readQ.FULL := by
    rcases he with rfl | rfl <;> decide +kernel
  have h3 : ¬ (press e (press 0x01 (press 0x61 (editing e)))).tty.readQ.FULL := by
    rcases he with rfl | rfl <;> decide +kernel
  exact ((((Session.start.key h0 0x61).cook.key h1 0x01).cook.key h2 e).cook.key h3 e).cook.flush

/-- Neither of the two characters is a control character that edits or ends a line. -/
theorem plain_retyped (he : e = ASC_DEL ∨ e = 0x7F) :
    ∀ c ∈ [(0x61 : BitVec 8), 0x01], (editing e).tty.termios.Plain c := by
  have hlow : ∀ c ∈ [(0x61 : BitVec 8), 0x01], c < 0x80 := by decide
  have hends : ∀ c ∈ [(0x61 : BitVec 8), 0x01], ¬ (editing e).tty.termios.coded.ends c := by
    rcases he with rfl | rfl <;> decide +kernel
  have hcc : ∀ c ∈ [(0x61 : BitVec 8), 0x01], ∀ i ∈ [V_KILL, V_ERASE, V_STOP, V_START],
      ¬ (editing e).tty.termios.coded.isCc i c := by
    rcases he with rfl | rfl <;> decide +kernel
  intro c hc
  refine ⟨hlow c hc, hends c hc, ?_⟩
  rintro (h | h | h | h)
  · exact hcc c hc V_KILL (by decide) h
  · exact hcc c hc V_ERASE (by decide) h
  · exact hcc c hc V_STOP (by decide) h
  · exact hcc c hc V_START (by decide) h

theorem typedErased_retyped (he : e = ASC_DEL ∨ e = 0x7F) :
    TypedErased (editing e) (retyped e) [0x61, 0x01, e, e] [0x61, 0x01] [e, e] := by
  have hdone : (retyped e).tty.readQ.EMPTY ∧ (retyped e).overrun = false := by
    rcases he with rfl | rfl <;> decide +kernel
  have hmapped : [0x61, 0x01, e, e].filterMap (editing e).tty.termios.mapChar =
      [0x61, 0x01] ++ [e, e] := by
    rcases he with rfl | rfl <;> decide +kernel
  have hkeys : ∀ e' ∈ [e, e], (editing e).tty.termios.isCc V_ERASE e' ∧
      ¬ (editing e).tty.termios.isCc V_KILL e' := by
    rcases he with rfl | rfl <;> decide +kernel
  have hvalid := typed_valid (editing e).tty.termios [] []
  exact
    { valid := ⟨hvalid.readQ, hvalid.writeQ, hvalid.secondary⟩
      coherent := by rw [shown_editing]; exact blankConsole_coherent
      normal := by rw [shown_editing]; rfl
      canon := show (I_CRNL ||| L_ICANON) &&& L_ICANON ≠ 0 by decide
      echo := show kernelTermios.cLflag &&& L_ECHO ≠ 0 by decide
      empty := show TtyQueue.empty.EMPTY by decide
      session := session_retyped he
      done := hdone.1
      in_time := hdone.2
      mapped := hmapped
      plain := plain_retyped he
      erasing := Or.inl ⟨rfl, hkeys⟩
      room := by rw [shown_editing]; exact blankConsole_room }

/-- The deletions are what the console deletes on. -/
theorem erase_undoes_echo_retyped :
    SameScreen (editing ASC_DEL).shown (retyped ASC_DEL).shown :=
  (erase_undoes_echo_iff (typedErased_retyped (Or.inl rfl))).mpr
    (show Undone ASC_DEL 0 [0x61, 0x01] from Or.inl (by decide))

/-- The terminal of the kernel writes what its console ignores. -/
theorem erase_leaves_echo :
    TypedErased (editing 0x7F) (retyped 0x7F) [0x61, 0x01, 0x7F, 0x7F] [0x61, 0x01] [0x7F, 0x7F] ∧
      ¬ SameScreen (editing 0x7F).shown (retyped 0x7F).shown := by
  refine ⟨typedErased_retyped (Or.inr rfl), fun hsame => ?_⟩
  have hx : (editing 0x7F).shown.curPosX = 0 ∧ (retyped 0x7F).shown.curPosX = 3 := by
    decide +kernel
  have hmoved := hsame.x
  rw [hx.1, hx.2] at hmoved
  exact absurd hmoved (by decide)

end Terminal

end Driver
end CherryOS
