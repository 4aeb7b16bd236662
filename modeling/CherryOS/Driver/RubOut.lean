import CherryOS.Driver.Cooking

/-!
# Echoes on a screen

What the echo of some characters does to a screen, and what the bytes that take it back do.
`Ahead S T w` says that `T` is the screen `S` with `w` more cells of the row typed: a
displayed character adds one, a deletion takes one away, and with none `T` is `S`.
-/

namespace CherryOS
namespace Driver

open Kernel

namespace Screen

structure Ahead (S T : Screen) (w : Nat) : Prop where
  cols : T.cols = S.cols
  normal : T.state = .normal
  x : T.x = S.x + w
  y : T.y = S.y
  savedX : T.savedX = S.savedX
  savedY : T.savedY = S.savedY
  grid : ∀ r k, ¬ (r = S.y ∧ S.x ≤ k ∧ k < S.x + w) → T.grid r k = S.grid r k

/-- The cells that are not shown are not recorded. -/
def Masked (S : Screen) : Prop := ∀ r k, ¬ S.Shown r k → S.grid r k = 0

/-- The `w` cells from the cursor on are blank, and in the row. -/
structure Room (S : Screen) (w : Nat) : Prop where
  fits : S.x + w ≤ S.cols
  blank : ∀ k, S.x ≤ k → k < S.x + w → S.Shown S.y k → S.grid S.y k = BLANK

variable {S T : Screen} {w n : Nat} {erase c : BitVec 8}

theorem Ahead.refl (h : S.state = .normal) : S.Ahead S 0 :=
  ⟨rfl, h, rfl, rfl, rfl, rfl, fun _ _ _ => rfl⟩

theorem Ahead.eq (h : S.Ahead T 0) (hnormal : S.state = .normal) : T = S := by
  have hgrid : T.grid = S.grid := by
    funext r k
    exact h.grid r k (by omega)
  have hstate := h.normal.trans hnormal.symm
  obtain ⟨hcols, -, hx, hy, hsx, hsy, -⟩ := h
  cases S
  cases T
  simp only [Screen.mk.injEq]
  exact ⟨hcols, hstate, hx, hy, hsx, hsy, hgrid⟩

theorem put_grid_of_ne (T : Screen) {x y r k : Nat} {v : BitVec 16} (h : T.Shown r k)
    (hne : ¬ (r = y ∧ k = x)) : (T.put x y v).grid r k = T.grid r k := by
  show (if T.Shown r k then if r = y ∧ k = x then v else T.grid r k else 0) = _
  rw [if_pos h, if_neg hne]

theorem put_grid_same (T : Screen) {x y : Nat} {v : BitVec 16} (h : T.Shown y x) :
    (T.put x y v).grid y x = v := by
  show (if T.Shown y x then if y = y ∧ x = x then v else T.grid y x else 0) = _
  rw [if_pos h, if_pos ⟨rfl, rfl⟩]

theorem put_grid_hidden (T : Screen) {x y r k : Nat} {v : BitVec 16} (h : ¬ T.Shown r k) :
    (T.put x y v).grid r k = 0 := if_neg h

/-! ## Characters -/

theorem Ahead.print (h : S.Ahead T w) (hmasked : S.Masked) (hfits : S.x + (w + 1) ≤ S.cols)
    (c : BitVec 8) : S.Ahead (T.print c) (w + 1) := by
  have hx := h.x
  have hcols := h.cols
  have hroom : ¬ T.cols ≤ T.x := by omega
  rw [Screen.print, if_neg hroom]
  refine ⟨hcols, h.normal, congrArg (· + 1) hx, h.y, h.savedX, h.savedY, fun r k hout => ?_⟩
  show (T.put T.x T.y _).grid r k = S.grid r k
  by_cases hshown : T.Shown r k
  · have hne : ¬ (r = T.y ∧ k = T.x) := by
      rintro ⟨hr, hk⟩
      exact hout ⟨hr.trans h.y, by omega, by omega⟩
    rw [put_grid_of_ne T hshown hne]
    exact h.grid r k fun hin => hout ⟨hin.1, hin.2.1, by omega⟩
  · rw [put_grid_hidden T hshown, hmasked r k]
    rwa [Shown, ← hcols]

theorem Ahead.delete (h : S.Ahead T (w + 1)) (hmasked : S.Masked) (hroom : S.Room (w + 1)) :
    S.Ahead T.delete w := by
  have hx := h.x
  have hcols := h.cols
  have hpos : ¬ T.x = 0 := by omega
  have hplace : T.x - 1 = S.x + w := by omega
  rw [Screen.delete, if_neg hpos]
  refine ⟨hcols, h.normal, hplace, h.y, h.savedX, h.savedY, fun r k hout => ?_⟩
  show (T.left.put (T.x - 1) T.y BLANK).grid r k = S.grid r k
  have hsame : S.Shown r k ↔ T.left.Shown r k := by
    show _ ∧ _ ↔ _ ∧ k < T.cols
    rw [hcols]
  by_cases hshown : T.left.Shown r k
  · by_cases hat : r = T.y ∧ k = T.x - 1
    · obtain ⟨rfl, rfl⟩ := hat
      rw [put_grid_same T.left hshown, h.y]
      refine (hroom.blank _ (by omega) (by omega) ?_).symm
      rw [← h.y]
      exact hsame.mpr hshown
    · rw [put_grid_of_ne T.left hshown hat]
      refine h.grid r k fun hin => ?_
      have hy := h.y
      exact hout ⟨hin.1, hin.2.1, by omega⟩
  · rw [put_grid_hidden T.left hshown, hmasked r k fun hs => hshown (hsame.mp hs)]

/-! ## Bytes -/

theorem write_cons (erase : BitVec 8) (T : Screen) (c : BitVec 8) (p : List (BitVec 8)) :
    T.write erase (c :: p) = (T.writeByte erase c).write erase p := rfl

theorem write_append (erase : BitVec 8) (T : Screen) (p q : List (BitVec 8)) :
    T.write erase (p ++ q) = (T.write erase p).write erase q :=
  List.foldl_append

theorem writeByte_print (h : T.state = .normal) (hc : 0x1F < c.toInt ∧ c.toInt < 0x7F) :
    T.writeByte erase c = T.print c := by
  rw [writeByte, if_pos h, normalByte, if_pos hc]

theorem writeByte_del (h : T.state = .normal) : T.writeByte ASC_DEL ASC_DEL = T.delete := by
  rw [writeByte, if_pos h]
  rfl

/-- The two characters that are neither displayed nor do anything, unless they delete. -/
theorem writeByte_ignored (h : T.state = .normal) (hc : c = ASC_DEL ∨ c = 0x7F) (hne : erase ≠ c) :
    T.writeByte erase c = T := by
  have hcc : ¬ c.toInt = erase.toNat := fun heq => by
    refine hne (BitVec.eq_of_toNat_eq ?_)
    rcases hc with rfl | rfl
    · exact (Int.ofNat.inj heq).symm
    · exact (Int.ofNat.inj heq).symm
  rw [writeByte, if_pos h, normalByte]
  rcases hc with rfl | rfl
  · rw [if_neg (by decide), if_neg (by decide), if_neg (by decide), if_neg (by decide),
      if_neg hcc, if_neg (by decide), if_neg (by decide)]
  · rw [if_neg (by decide), if_neg (by decide), if_neg (by decide), if_neg (by decide),
      if_neg hcc, if_neg (by decide), if_neg (by decide)]

theorem Ahead.rub (hmasked : S.Masked) (h : S.Ahead T (w + n)) (hroom : S.Room (w + n)) :
    S.Ahead (T.write ASC_DEL (List.replicate n ASC_DEL)) w := by
  induction n generalizing T with
  | zero => exact h
  | succ n ih =>
    have hless : S.Room (w + n) :=
      ⟨by have := hroom.fits; omega, fun k hk hlt => hroom.blank k hk (by omega)⟩
    have hdelete := Ahead.delete (w := w + n) h hmasked hroom
    rw [List.replicate_succ, write_cons, writeByte_del h.normal]
    exact ih hdelete hless

theorem write_rub_ignored (h : T.state = .normal) (hne : erase ≠ ASC_DEL) (n : Nat) :
    T.write erase (List.replicate n ASC_DEL) = T := by
  induction n with
  | zero => rfl
  | succ n ih =>
    rw [List.replicate_succ, write_cons, writeByte_ignored h (Or.inl rfl) hne]
    exact ih

theorem delete_x (T : Screen) : T.delete.x = T.x - 1 := by
  rw [delete]
  split_ifs with hzero
  · omega
  · rfl

theorem delete_state (T : Screen) : T.delete.state = T.state := by
  rw [delete]
  split_ifs <;> rfl

theorem write_rub_x (h : T.state = .normal) (n : Nat) :
    (T.write ASC_DEL (List.replicate n ASC_DEL)).x = T.x - n := by
  induction n generalizing T with
  | zero => rfl
  | succ n ih =>
    rw [List.replicate_succ, write_cons, writeByte_del h, ih ((delete_state T).trans h), delete_x]
    omega

theorem write_rub_start (h : T.state = .normal) (hx : T.x = 0) (n : Nat) :
    T.write ASC_DEL (List.replicate n ASC_DEL) = T := by
  induction n with
  | zero => rfl
  | succ n ih =>
    rw [List.replicate_succ, write_cons, writeByte_del h, delete, if_pos hx]
    exact ih

end Screen

/-! ## Characters typed -/

/-- The cells that the echo of a character takes. -/
def width (c : BitVec 8) : Nat := if c < 0x20 then 2 else if c = 0x7F then 0 else 1

/-- The deletions that are written for a character taken back. -/
def deletions (c : BitVec 8) : Nat := if c < 0x20 then 2 else 1

theorem deletions_eq (cs : List (BitVec 8)) :
    (cs.map deletions).sum = (cs.map width).sum + cs.count 0x7F := by
  induction cs with
  | nil => rfl
  | cons c cs ih =>
    have hone : deletions c = width c + if c == 0x7F then 1 else 0 := by
      rw [deletions, width]
      by_cases hdel : c = 0x7F
      · subst hdel
        decide
      · rw [if_neg hdel, if_neg (mt beq_iff_eq.mp hdel), Nat.add_zero]
    rw [List.map_cons, List.map_cons, List.sum_cons, List.sum_cons, List.count_cons, ih, hone]
    omega

theorem width_sum_eq_zero {cs : List (BitVec 8)} :
    (cs.map width).sum = 0 ↔ ∀ c ∈ cs, c = 0x7F := by
  have hzero : ∀ c, width c = 0 ↔ c = 0x7F := by decide
  simp only [List.sum_eq_zero_iff, List.mem_map, forall_exists_index, and_imp,
    forall_apply_eq_imp_iff₂, hzero]

namespace Termios

/-- A printable or control character that neither ends a line nor edits. -/
structure Plain (t : Termios) (c : BitVec 8) : Prop where
  low : c < 0x80
  not_ends : ¬ t.coded.ends c
  not_edits : ¬ t.coded.Edits c

variable {t : Termios} {c : BitVec 8}

theorem toInt_of_low (h : c < 0x80) : c.toInt = c.toNat := by
  have hlt : c.toNat < 128 := h
  rw [BitVec.toInt_eq_toNat_cond, if_pos (by omega)]

theorem rubOut_eq (hecho : t.cLflag &&& L_ECHO ≠ 0) (hlow : c < 0x80) :
    t.rubOut c = List.replicate (deletions c) ASC_DEL := by
  have hsmall : c.toInt < 0x20 ↔ c < 0x20 := by
    rw [toInt_of_low hlow]
    show (c.toNat : Int) < 32 ↔ c.toNat < 32
    omega
  rw [rubOut, if_pos hecho, deletions]
  simp only [hsmall]
  split_ifs <;> rfl

theorem rubOuts_eq (hecho : t.cLflag &&& L_ECHO ≠ 0) {cs : List (BitVec 8)}
    (hlow : ∀ c ∈ cs, c < 0x80) :
    cs.reverse.flatMap t.rubOut = List.replicate (cs.map deletions).sum ASC_DEL := by
  induction cs with
  | nil => rfl
  | cons c cs ih =>
    have hrest := ih fun c' hc' => hlow c' (List.mem_cons_of_mem c hc')
    rw [List.reverse_cons, List.flatMap_append, hrest, List.flatMap_singleton,
      rubOut_eq hecho (hlow c List.mem_cons_self), List.replicate_append_replicate, List.map_cons,
      List.sum_cons, Nat.add_comm]

end Termios

section
variable {t : Termios} {S T : Screen} {w : Nat} {c : BitVec 8}

/-- A control character is shown as two cells. -/
theorem Screen.Ahead.caret (h : S.Ahead T w) (hmasked : S.Masked) (hc : c < 0x20)
    (hfits : S.x + (w + 2) ≤ S.cols) (erase : BitVec 8) :
    S.Ahead (T.write erase [0x5E, c + 0x40]) (w + 2) := by
  have hsmall : c.toNat < 32 := hc
  have hletter : (c + 0x40).toNat = c.toNat + 64 := by
    rw [BitVec.toNat_add]
    show (c.toNat + 64) % 256 = _
    omega
  have hprint : 0x1F < (c + 0x40).toInt ∧ (c + 0x40).toInt < 0x7F := by
    rw [BitVec.toInt_eq_toNat_cond, hletter, if_pos (by omega)]
    omega
  have hcaret := h.print hmasked (by omega) 0x5E
  rw [Screen.write_cons, Screen.write_cons, Screen.writeByte_print h.normal (by decide),
    Screen.writeByte_print hcaret.normal hprint]
  exact hcaret.print hmasked hfits _

theorem Screen.Ahead.echo (h : S.Ahead T w) (hmasked : S.Masked) (hc : t.Plain c)
    (hecho : t.cLflag &&& L_ECHO ≠ 0) (hfits : S.x + (w + width c) ≤ S.cols) :
    S.Ahead (T.write (t.cCc V_ERASE) (t.echo c)) (w + width c) := by
  have hlow : c.toNat < 128 := hc.low
  have hint := Termios.toInt_of_low hc.low
  have hnl : ¬ c = ASC_NL := fun hnl => hc.not_ends (Termios.coded_ends.mpr (Or.inl hnl))
  rw [Termios.echo, if_pos hecho, if_neg hnl]
  rw [width] at hfits ⊢
  by_cases hsmall : c < 0x20
  · have hsmall' : c.toInt < 0x20 := by
      rw [hint]
      exact Int.ofNat_lt.mpr hsmall
    rw [if_pos hsmall] at hfits
    rw [if_pos hsmall, if_pos hsmall']
    exact h.caret hmasked hsmall hfits _
  · have hlarge : 32 ≤ c.toNat := Nat.not_lt.mp hsmall
    rw [if_neg hsmall] at hfits
    rw [if_neg hsmall, if_neg (by omega : ¬ c.toInt < 0x20), Screen.write_cons]
    by_cases hdel : c = 0x7F
    · subst hdel
      have hne : t.cCc V_ERASE ≠ 0x7F := fun heq =>
        hc.not_edits (Or.inr (Or.inl (Termios.coded_isCc.mpr ⟨hc.low, heq.symm⟩)))
      rw [Screen.writeByte_ignored h.normal (Or.inr rfl) hne]
      exact h
    · have hne : c.toNat ≠ 127 := fun heq => hdel (BitVec.eq_of_toNat_eq heq)
      rw [if_neg hdel] at hfits
      rw [if_neg hdel, Screen.writeByte_print h.normal (by omega)]
      exact h.print hmasked hfits c

theorem Screen.Ahead.echoes (hmasked : S.Masked) (hecho : t.cLflag &&& L_ECHO ≠ 0)
    {cs : List (BitVec 8)} (hplain : ∀ c ∈ cs, t.Plain c) (h : S.Ahead T w)
    (hfits : S.x + (w + (cs.map width).sum) ≤ S.cols) :
    S.Ahead (T.write (t.cCc V_ERASE) (cs.flatMap t.echo)) (w + (cs.map width).sum) := by
  induction cs generalizing T w with
  | nil => exact h
  | cons c cs ih =>
    rw [List.map_cons, List.sum_cons] at hfits
    have hfirst := h.echo hmasked (hplain c List.mem_cons_self) hecho (by omega)
    have hrest := ih (fun c' hc' => hplain c' (List.mem_cons_of_mem c hc')) hfirst (by omega)
    rw [List.flatMap_cons, Screen.write_append, List.map_cons, List.sum_cons, ← Nat.add_assoc]
    exact hrest

/-- The exact condition: the deletions that are written are what the console deletes on, and
there are as many of them as cells, or no cells before the first. -/
def Undone (erase : BitVec 8) (x : Nat) (cs : List (BitVec 8)) : Prop :=
  if erase = ASC_DEL then 0x7F ∉ cs ∨ x = 0 else ∀ c ∈ cs, c = 0x7F

theorem write_undo_iff (hmasked : S.Masked) (hnormal : S.state = .normal)
    (hecho : t.cLflag &&& L_ECHO ≠ 0) {cs : List (BitVec 8)} (hplain : ∀ c ∈ cs, t.Plain c)
    (hroom : S.Room (cs.map width).sum) :
    S.write (t.cCc V_ERASE) (cs.flatMap t.echo ++ cs.reverse.flatMap t.rubOut) = S ↔
      Undone (t.cCc V_ERASE) S.x cs := by
  have hahead := Screen.Ahead.echoes hmasked hecho hplain (.refl hnormal)
    (by rw [Nat.zero_add]; exact hroom.fits)
  rw [Nat.zero_add] at hahead
  rw [Screen.write_append, Termios.rubOuts_eq hecho fun c hc => (hplain c hc).low, deletions_eq]
  obtain ⟨T, hT⟩ : ∃ T, T = S.write (t.cCc V_ERASE) (cs.flatMap t.echo) := ⟨_, rfl⟩
  rw [← hT] at hahead ⊢
  rw [Undone]
  by_cases herase : t.cCc V_ERASE = ASC_DEL
  · have hback : S.Ahead (T.write ASC_DEL (List.replicate (cs.map width).sum ASC_DEL)) 0 := by
      refine Screen.Ahead.rub hmasked ?_ ?_
      · rwa [Nat.zero_add]
      · rwa [Nat.zero_add]
    rw [if_pos herase, herase, List.replicate_add, Screen.write_append, hback.eq hnormal]
    constructor
    · intro heq
      have hx := Screen.write_rub_x hnormal (cs.count 0x7F)
      rw [heq] at hx
      rw [← List.count_eq_zero]
      omega
    · rintro (hnone | hx)
      · rw [List.count_eq_zero.mpr hnone]
        rfl
      · exact Screen.write_rub_start hnormal hx _
  · rw [if_neg herase, Screen.write_rub_ignored hahead.normal herase, ← width_sum_eq_zero]
    constructor
    · intro heq
      have hx := hahead.x
      rw [heq] at hx
      omega
    · intro hzero
      rw [hzero] at hahead
      exact hahead.eq hnormal

end

end Driver
end CherryOS
