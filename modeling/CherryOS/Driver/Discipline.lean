import CherryOS.Driver.Tty
import Mathlib.Data.List.DropRight

/-!
# Line disciplines

A discipline edits a list of characters, the last line of which is unfinished.  It is given
by how it maps a byte, by whether it edits at all, and by which characters are the control
characters.  What `copy_to_cooked` does to `secondary` and to `stopped` is one discipline
(`Termios.coded`), and what a canonical terminal should do is another (`Termios.reference`).
-/

namespace CherryOS
namespace Driver

open Kernel

structure Discipline where
  map : BitVec 8 → Option (BitVec 8)
  canon : Bool
  isCc : Nat → BitVec 8 → Bool

structure Cooked where
  line : List (BitVec 8)
  stopped : U32
deriving DecidableEq

namespace Discipline

/-- A character that ends a line. -/
def ends (d : Discipline) (c : BitVec 8) : Bool := c == ASC_NL || d.isCc V_EOF c

def erase (d : Discipline) (line : List (BitVec 8)) : List (BitVec 8) :=
  if line.getLast?.any d.ends then line else line.dropLast

/-- The line back to the last character that ends one. -/
def kill (d : Discipline) (line : List (BitVec 8)) : List (BitVec 8) :=
  line.rdropWhile fun c => !d.ends c

def cook (d : Discipline) (s : Cooked) (c : BitVec 8) : Cooked :=
  if d.canon then
    if d.isCc V_KILL c then { s with line := d.kill s.line }
    else if d.isCc V_ERASE c then { s with line := d.erase s.line }
    else if d.isCc V_STOP c then { s with stopped := 1 }
    else if d.isCc V_START c then { s with stopped := 0 }
    else { s with line := s.line ++ [c] }
  else { s with line := s.line ++ [c] }

def step (d : Discipline) (s : Cooked) (b : BitVec 8) : Cooked :=
  match d.map b with
  | none => s
  | some c => d.cook s c

def run (d : Discipline) (s : Cooked) (bytes : List (BitVec 8)) : Cooked := bytes.foldl d.step s

/-- The last line is not begun. -/
def Ended (d : Discipline) (line : List (BitVec 8)) : Prop :=
  ∀ begun c, line = begun ++ [c] → d.ends c

/-- The characters that edit. -/
def Edits (d : Discipline) (c : BitVec 8) : Prop :=
  d.isCc V_KILL c ∨ d.isCc V_ERASE c ∨ d.isCc V_STOP c ∨ d.isCc V_START c

variable {d : Discipline} {c : BitVec 8} {s : Cooked}

theorem erase_append (d : Discipline) (line : List (BitVec 8)) (c : BitVec 8) :
    d.erase (line ++ [c]) = if d.ends c then line ++ [c] else line := by
  rw [erase, List.getLast?_concat, Option.any_some, List.dropLast_concat]

theorem kill_append (d : Discipline) (line : List (BitVec 8)) (c : BitVec 8) :
    d.kill (line ++ [c]) = if d.ends c then line ++ [c] else d.kill line := by
  rw [kill, List.rdropWhile_concat]
  cases d.ends c <;> rfl

theorem erase_of_ended {line : List (BitVec 8)} (h : d.Ended line) : d.erase line = line := by
  obtain rfl | ⟨begun, c, rfl⟩ := List.eq_nil_or_concat' line
  · rfl
  · rw [erase_append, if_pos (h begun c rfl)]

theorem kill_of_ended {line : List (BitVec 8)} (h : d.Ended line) : d.kill line = line := by
  obtain rfl | ⟨begun, c, rfl⟩ := List.eq_nil_or_concat' line
  · rfl
  · rw [kill_append, if_pos (h begun c rfl)]

theorem cook_of_not_edits (h : ¬ (d.canon ∧ d.Edits c)) :
    d.cook s c = { s with line := s.line ++ [c] } := by
  rw [cook]
  split_ifs with hcanon hkill herase hstop hstart
  · exact absurd ⟨hcanon, Or.inl hkill⟩ h
  · exact absurd ⟨hcanon, Or.inr (Or.inl herase)⟩ h
  · exact absurd ⟨hcanon, Or.inr (Or.inr (Or.inl hstop))⟩ h
  · exact absurd ⟨hcanon, Or.inr (Or.inr (Or.inr hstart))⟩ h
  · rfl
  · rfl

/-- An editing character leaves nothing behind. -/
theorem cook_nil_of_edits (hcanon : d.canon) (h : d.Edits c) (stopped : U32) :
    (d.cook ⟨[], stopped⟩ c).line = [] := by
  rw [cook, if_pos hcanon]
  split_ifs with hkill herase hstop hstart
  · rfl
  · rfl
  · rfl
  · rfl
  · obtain h | h | h | h := h
    · exact absurd h hkill
    · exact absurd h herase
    · exact absurd h hstop
    · exact absurd h hstart

/-- Both ways to take characters back, on a single one. -/
theorem cook_singleton (hcanon : d.canon) (h : d.isCc V_KILL c ∨ d.isCc V_ERASE c)
    (v : BitVec 8) (stopped : U32) :
    (d.cook ⟨[v], stopped⟩ c).line = if d.ends v then [v] else [] := by
  have hkill : d.kill [v] = if d.ends v then [v] else [] := d.kill_append [] v
  have herase : d.erase [v] = if d.ends v then [v] else [] := d.erase_append [] v
  rw [cook, if_pos hcanon, ← hkill]
  split_ifs with hk he
  · rfl
  · exact herase.trans hkill.symm
  · exact absurd h (not_or_intro hk he)
  · exact absurd h (not_or_intro hk he)
  · exact absurd h (not_or_intro hk he)

end Discipline

namespace Termios

/-- The discipline of `copy_to_cooked`. -/
def coded (t : Termios) : Discipline :=
  { map := t.mapChar
    canon := decide (t.cIflag &&& L_ICANON ≠ 0)
    isCc := fun i c => decide (t.isCc i c) }

/-- The discipline of a canonical terminal: `L_ICANON` is a flag of `c_lflag`, and a character
is a control character when the two bytes are the same. -/
def reference (t : Termios) : Discipline :=
  { map := t.mapChar
    canon := decide (t.cLflag &&& L_ICANON ≠ 0)
    isCc := fun i c => c == t.cCc i }

section
variable {t : Termios} {c : BitVec 8}

theorem isCc_iff {i : Nat} : t.isCc i c ↔ c < 0x80 ∧ c = t.cCc i := by
  have hlt : c < 0x80 ↔ c.toNat < 128 := Iff.rfl
  have heq : c = t.cCc i ↔ c.toNat = (t.cCc i).toNat :=
    ⟨congrArg BitVec.toNat, BitVec.eq_of_toNat_eq⟩
  rw [isCc, BitVec.toInt_eq_toNat_cond, hlt, heq]
  split_ifs <;> omega

theorem coded_canon : t.coded.canon ↔ t.cIflag &&& L_ICANON ≠ 0 := decide_eq_true_iff

theorem coded_isCc {i : Nat} : t.coded.isCc i c ↔ c < 0x80 ∧ c = t.cCc i :=
  decide_eq_true_iff.trans isCc_iff

theorem coded_ends : t.coded.ends c ↔ c = ASC_NL ∨ t.isCc V_EOF c := by
  rw [Discipline.ends, Bool.or_eq_true, beq_iff_eq, coded, decide_eq_true_iff]

end

/-! ## What is echoed -/

/-- The bytes that take back the echo of a character. -/
def rubOut (t : Termios) (c : BitVec 8) : List (BitVec 8) :=
  if t.cLflag &&& L_ECHO ≠ 0 then
    if c.toInt < 0x20 then [ASC_DEL, ASC_DEL] else [ASC_DEL]
  else []

def eraseEcho (t : Termios) (line : List (BitVec 8)) : List (BitVec 8) :=
  match line.getLast? with
  | none => []
  | some c => if t.coded.ends c then [] else t.rubOut c

/-- The characters of the unfinished line, the last one first. -/
def killEcho (t : Termios) (line : List (BitVec 8)) : List (BitVec 8) :=
  (line.rtakeWhile fun c => !t.coded.ends c).reverse.flatMap t.rubOut

def cookEcho (t : Termios) (line : List (BitVec 8)) (c : BitVec 8) : List (BitVec 8) :=
  if t.coded.canon then
    if t.isCc V_KILL c then t.killEcho line
    else if t.isCc V_ERASE c then t.eraseEcho line
    else if t.isCc V_STOP c then []
    else if t.isCc V_START c then []
    else t.echo c
  else t.echo c

def stepEcho (t : Termios) (s : Cooked) (b : BitVec 8) : List (BitVec 8) :=
  match t.mapChar b with
  | none => []
  | some c => t.cookEcho s.line c

/-- What a run of `copy_to_cooked` puts in `write_q`. -/
def echoes (t : Termios) : Cooked → List (BitVec 8) → List (BitVec 8)
  | _, [] => []
  | s, b :: bytes => t.stepEcho s b ++ t.echoes (t.coded.step s b) bytes

variable {t : Termios}

theorem eraseEcho_append (line : List (BitVec 8)) (c : BitVec 8) :
    t.eraseEcho (line ++ [c]) = if t.coded.ends c then [] else t.rubOut c := by
  rw [eraseEcho, List.getLast?_concat]

theorem killEcho_append (line : List (BitVec 8)) (c : BitVec 8) :
    t.killEcho (line ++ [c]) = if t.coded.ends c then [] else t.rubOut c ++ t.killEcho line := by
  rw [killEcho, List.rtakeWhile_concat]
  cases t.coded.ends c with
  | true => rfl
  | false =>
    rw [if_pos (by decide), if_neg (by decide), List.reverse_concat, List.flatMap_cons]
    rfl

theorem eraseEcho_of_ended {line : List (BitVec 8)} (h : t.coded.Ended line) :
    t.eraseEcho line = [] := by
  obtain rfl | ⟨begun, c, rfl⟩ := List.eq_nil_or_concat' line
  · rfl
  · rw [eraseEcho_append, if_pos (h begun c rfl)]

theorem killEcho_of_ended {line : List (BitVec 8)} (h : t.coded.Ended line) :
    t.killEcho line = [] := by
  obtain rfl | ⟨begun, c, rfl⟩ := List.eq_nil_or_concat' line
  · rfl
  · rw [killEcho_append, if_pos (h begun c rfl)]

theorem echoes_append (s : Cooked) (p q : List (BitVec 8)) :
    t.echoes s (p ++ q) = t.echoes s p ++ t.echoes (t.coded.run s p) q := by
  induction p generalizing s with
  | nil => rfl
  | cons b p ih =>
    rw [List.cons_append, echoes, ih, echoes, List.append_assoc]
    rfl

end Termios

end Driver
end CherryOS
