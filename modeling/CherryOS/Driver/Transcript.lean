import CherryOS.Driver.EscapeParser
import CherryOS.Driver.Scrolling
import CherryOS.Kernel.Printk
import CherryOS.Lib.Roll

/-!
# What the user reads

The screen is a window of 25 rows on a roll: it shows the row of the cursor and the rows above
it, and moves down when the cursor leaves it.  Of bytes without an escape character this holds
whatever they are; so the screen after some lines of text is the last 25 rows of what they
take on the roll, and the messages of the kernel are such lines.
-/

namespace CherryOS
namespace Driver

open Lib Kernel

namespace Screen

/-- The first row of the roll that is shown. -/
def top (row : Nat) : Nat := row - (DISPLAY_LINE_NR - 1)

/-- The screen shows the rows of the roll down to the pen's, or the first 25.  The rows that no
pen has come to are blank. -/
structure Views (s : Screen) (p : Roll (BitVec 16)) : Prop where
  cols : p.width = s.cols
  normal : s.state = .normal
  x : p.x = s.x
  y : p.row = top p.row + s.y
  shown : ∀ r k, s.Shown r k → s.grid r k = p.rows (top p.row + r) k
  fresh : ∀ r k, DISPLAY_LINE_NR ≤ r → p.row < r → k < s.cols → p.rows r k = BLANK

/-- What `console_write` does with a byte, on a roll. -/
def onRoll (erase c : BitVec 8) (p : Roll (BitVec 16)) : Roll (BitVec 16) :=
  if 0x1F < c.toInt ∧ c.toInt < 0x7F then p.print (0x0700 + c.setWidth 16)
  else if c = 0x0A ∨ c = 0x0B ∨ c = 0x0C then p.feed
  else if c = 0x0D then p.ret
  else if c.toInt = erase.toNat then p.delete BLANK
  else if c = 0x08 then p.left
  else if c = 0x09 then p.tab 8
  else p

namespace Views

variable {s : Screen} {p : Roll (BitVec 16)}

theorem lines_eq : DISPLAY_LINE_NR = 25 := rfl

theorem y_lt (h : s.Views p) : s.y < DISPLAY_LINE_NR := by
  have hy := h.y
  rw [top] at hy
  have hlines := lines_eq
  omega

theorem withX (h : s.Views p) (x : Nat) : Views { s with x := x } { p with x := x } :=
  ⟨h.cols, h.normal, rfl, h.y, h.shown, h.fresh⟩

theorem left (h : s.Views p) : s.left.Views p.left := by
  rw [Screen.left, Roll.left, h.x]
  exact h.withX _

theorem put (h : s.Views p) (v : BitVec 16) : (s.put s.x s.y v).Views (p.put v) := by
  have hlines := lines_eq
  refine ⟨h.cols, h.normal, h.x, h.y, fun r k hrk => ?_, fun r k hr hrow hk => ?_⟩
  · have hput : (s.put s.x s.y v).grid r k = if r = s.y ∧ k = s.x then v else s.grid r k :=
      if_pos hrk
    have hroll : (p.put v).rows (top p.row + r) k =
        if top p.row + r = p.row ∧ k = p.x then v else p.rows (top p.row + r) k := rfl
    have hy := h.y
    have hat : top p.row + r = p.row ∧ k = p.x ↔ r = s.y ∧ k = s.x := by
      rw [h.x]
      omega
    show _ = (p.put v).rows (top p.row + r) k
    rw [hput, hroll]
    simp only [hat]
    split
    · rfl
    · exact h.shown r k hrk
  · have hrow : p.row < r := hrow
    have hne : ¬ (r = p.row ∧ k = p.x) := fun hc => by omega
    show (if r = p.row ∧ k = p.x then v else p.rows r k) = BLANK
    rw [if_neg hne]
    exact h.fresh r k hr hrow hk

theorem lineFeed (h : s.Views p) : s.lineFeed.Views p.feed := by
  have hlines := lines_eq
  have hy := h.y
  rw [Screen.lineFeed]
  split
  · rename_i hroom
    -- the window stays
    have htop : top (p.row + 1) = top p.row := by
      rw [top, top]
      rw [top] at hy
      omega
    refine ⟨h.cols, h.normal, h.x, ?_, fun r k hrk => ?_, fun r k hr hrow hk => ?_⟩
    · show p.row + 1 = top (p.row + 1) + (s.y + 1)
      omega
    · show s.grid r k = p.rows (top (p.row + 1) + r) k
      rw [htop]
      exact h.shown r k hrk
    · have hrow : p.row + 1 < r := hrow
      exact h.fresh r k hr (by omega) hk
  · rename_i hfull
    -- the window moves on by a row, which is blank
    have hlast := h.y_lt
    have htop : top (p.row + 1) = top p.row + 1 := by
      rw [top, top]
      rw [top] at hy
      omega
    refine ⟨h.cols, h.normal, h.x, ?_, fun r k hrk => ?_, fun r k hr hrow hk => ?_⟩
    · show p.row + 1 = top (p.row + 1) + s.y
      omega
    · have hup : s.scrollUp.grid r k =
          if r + 1 < DISPLAY_LINE_NR then s.grid (r + 1) k else BLANK := if_pos hrk
      have hplace : top p.row + 1 + r = top p.row + (r + 1) := by omega
      show s.scrollUp.grid r k = p.rows (top (p.row + 1) + r) k
      rw [hup, htop, hplace]
      split
      · rename_i hr
        exact h.shown (r + 1) k ⟨hr, hrk.2⟩
      · have hr := hrk.1
        exact (h.fresh _ k (by omega) (by omega) hrk.2).symm
    · have hrow : p.row + 1 < r := hrow
      exact h.fresh r k hr (by omega) hk

theorem print (h : s.Views p) (c : BitVec 8) :
    (s.print c).Views (p.print (0x0700 + c.setWidth 16)) := by
  have hput : ∀ {t : Screen} {q : Roll (BitVec 16)}, t.Views q →
      Views { t.put t.x t.y (0x0700 + c.setWidth 16) with x := t.x + 1 }
        { q.put (0x0700 + c.setWidth 16) with x := q.x + 1 } := by
    intro t q ht
    rw [ht.x]
    exact (ht.put _).withX _
  rw [Screen.print, Roll.print, Roll.next, h.cols, h.x]
  split
  · exact hput (h.withX 0).lineFeed
  · exact hput h

theorem tab (h : s.Views p) : s.tab.Views (p.tab 8) := by
  have hx : p.x + (8 - p.x % 8) = s.x + (8 - s.x % 8) := by rw [h.x]
  have hwrap : s.x + (8 - s.x % 8) - p.width = s.x + (8 - s.x % 8) - s.cols := by rw [h.cols]
  rw [Screen.tab, Roll.tab, hx, hwrap]
  by_cases hfull : s.cols < s.x + (8 - s.x % 8)
  · rw [if_pos hfull, if_pos (by rw [h.cols]; exact hfull)]
    exact (h.withX _).lineFeed
  · rw [if_neg hfull, if_neg (by rw [h.cols]; exact hfull)]
    exact h.withX _

theorem delete (h : s.Views p) : s.delete.Views (p.delete BLANK) := by
  rw [Screen.delete, Roll.delete, h.x]
  split
  · exact h
  · exact h.left.put BLANK

/-- Whatever a byte does but to begin an escape sequence, the roll does it too. -/
theorem writeByte (h : s.Views p) (erase : BitVec 8) {c : BitVec 8} (hc : c ≠ 0x1B) :
    (s.writeByte erase c).Views (onRoll erase c p) := by
  rw [Screen.writeByte, if_pos h.normal, Screen.normalByte, onRoll, if_neg hc]
  split_ifs
  · exact h.print c
  · exact h.lineFeed
  · exact h.withX 0
  · exact h.delete
  · exact h.left
  · exact h.tab
  · exact h

theorem write (h : s.Views p) (erase : BitVec 8) {bytes : List (BitVec 8)}
    (hbytes : ∀ c ∈ bytes, c ≠ 0x1B) :
    (s.write erase bytes).Views (bytes.foldl (fun p c => onRoll erase c p) p) := by
  induction bytes generalizing s p with
  | nil => exact h
  | cons c bytes ih =>
    have hc := hbytes c List.mem_cons_self
    exact ih (h.writeByte erase hc) fun d hd => hbytes d (List.mem_cons_of_mem c hd)

end Views

/-! ## Lines of text -/

/-- The cell in which a character is shown. -/
def glyph (c : BitVec 8) : BitVec 16 := 0x0700 + c.setWidth 16

instance (c : BitVec 8) : Decidable (Console.Printable c) := inferInstanceAs (Decidable (_ ∧ _))

/-- A line as it comes to the console. -/
def lineBytes (l : List (BitVec 8)) : List (BitVec 8) := l ++ [ASC_CR, ASC_NL]

theorem ne_escape {c : BitVec 8} (hc : Console.Printable c) : c ≠ 0x1B := by
  intro h
  rw [h] at hc
  exact absurd hc.1 (by decide)

theorem onRoll_line (erase : BitVec 8) {l : List (BitVec 8)}
    (hl : ∀ c ∈ l, Console.Printable c) (p : Roll (BitVec 16)) :
    (lineBytes l).foldl (fun p c => onRoll erase c p) p = p.line (l.map glyph) := by
  have hchars : l.foldl (fun p c => onRoll erase c p) p = p.printAll (l.map glyph) := by
    induction l generalizing p with
    | nil => rfl
    | cons c l ih =>
      have hc : onRoll erase c p = p.print (glyph c) := if_pos (hl c List.mem_cons_self)
      rw [List.foldl_cons, hc, ih fun d hd => hl d (List.mem_cons_of_mem c hd)]
      rfl
  rw [lineBytes, List.foldl_append, hchars]
  rfl

theorem onRoll_lines (erase : BitVec 8) {ls : List (List (BitVec 8))}
    (hls : ∀ l ∈ ls, ∀ c ∈ l, Console.Printable c) (p : Roll (BitVec 16)) :
    (ls.flatMap lineBytes).foldl (fun p c => onRoll erase c p) p =
      p.lines (ls.map (List.map glyph)) := by
  induction ls generalizing p with
  | nil => rfl
  | cons l ls ih =>
    have hrest : ∀ l ∈ ls, ∀ c ∈ l, Console.Printable c := fun m hm =>
      hls m (List.mem_cons_of_mem l hm)
    rw [List.flatMap_cons, List.foldl_append, onRoll_line erase (hls l List.mem_cons_self),
      ih hrest]
    rfl

/-- A screen as the first rows of a roll that is blank below. -/
def roll (s : Screen) : Roll (BitVec 16) where
  width := s.cols
  rows := fun r k => if r < DISPLAY_LINE_NR then s.grid r k else BLANK
  row := s.y
  x := s.x

theorem views_roll {s : Screen} (hn : s.state = .normal) (hy : s.y < DISPLAY_LINE_NR) :
    s.Views s.roll := by
  have hlines : DISPLAY_LINE_NR = 25 := rfl
  have htop : top s.y = 0 := by
    rw [top]
    omega
  refine ⟨rfl, hn, rfl, ?_, fun r k hrk => ?_, fun r k hr _ _ => if_neg (Nat.not_lt.mpr hr)⟩
  · show s.y = top s.y + s.y
    rw [htop, Nat.zero_add]
  · show s.grid r k = s.roll.rows (top s.y + r) k
    rw [htop, Nat.zero_add]
    exact (if_pos hrk.1).symm

/-- The rows that lines take from the cursor on. -/
def textRows (s : Screen) (ls : List (List (BitVec 8))) : List (List (BitVec 16)) :=
  s.roll.rowsOf (ls.map (List.map glyph))

/-- The row of the cursor after the lines. -/
def bottom (s : Screen) (ls : List (List (BitVec 8))) : Nat := s.y + (s.textRows ls).length

/-- What was on the screen, and the lines written on it.  Where no character of a line is, the
screen stays as it was. -/
def page (s : Screen) (ls : List (List (BitVec 8))) (r k : Nat) : BitVec 16 :=
  if r < s.y then s.grid r k else (Roll.cell (s.textRows ls) (r - s.y) k).getD (s.roll.rows r k)

/-- `t` shows the last rows of the page, and its cursor is at the end of it. -/
structure Reads (s : Screen) (ls : List (List (BitVec 8))) (t : Screen) : Prop where
  grid : ∀ r k, s.Shown r k → t.grid r k = s.page ls (top (s.bottom ls) + r) k
  y : top (s.bottom ls) + t.y = s.bottom ls
  x : ls ≠ [] → t.x = 0

theorem reads_lines {s : Screen} (hn : s.state = .normal) (hx : s.x ≤ s.cols) (hc : 0 < s.cols)
    (hy : s.y < DISPLAY_LINE_NR) (erase : BitVec 8) {ls : List (List (BitVec 8))}
    (hls : ∀ l ∈ ls, ∀ c ∈ l, Console.Printable c) :
    s.Reads ls (s.write erase (ls.flatMap lineBytes)) := by
  have hlines : DISPLAY_LINE_NR = 25 := rfl
  have hview := views_roll hn hy
  cases ls with
  | nil =>
    have htop : top s.y = 0 := by
      rw [top]
      omega
    refine ⟨fun r k hrk => ?_, hview.y.symm, fun h => absurd rfl h⟩
    show s.grid r k = s.page [] (top s.y + r) k
    rw [htop, Nat.zero_add, page]
    split
    · rfl
    · exact (if_pos hrk.1).symm
  | cons l ls =>
    have hbytes : ∀ c ∈ (l :: ls).flatMap lineBytes, c ≠ 0x1B := by
      intro c hc
      obtain ⟨m, hm, hcm⟩ := List.mem_flatMap.mp hc
      rcases List.mem_append.mp hcm with hcm | hcm
      · exact ne_escape (hls m hm c hcm)
      · rcases List.mem_pair.mp hcm with rfl | rfl <;> decide
    have ht := hview.write erase hbytes
    have hwritten := Roll.written_lines (p := s.roll) hx hc (l.map glyph) (ls.map (List.map glyph))
    rw [onRoll_lines erase hls] at ht
    generalize s.write erase ((l :: ls).flatMap lineBytes) = t at ht
    have hrow : (s.roll.lines ((l :: ls).map (List.map glyph))).row = s.bottom (l :: ls) :=
      hwritten.row
    have hcols : t.cols = s.cols := ht.cols.symm.trans hwritten.width
    refine ⟨fun r k hrk => ?_, ?_, fun _ => ht.x.symm.trans hwritten.x⟩
    · have hk : k < t.cols := by rw [hcols]; exact hrk.2
      rw [ht.shown r k ⟨hrk.1, hk⟩, hrow, page]
      split
      · rename_i habove
        exact (hwritten.above _ k habove).trans (if_pos (by omega))
      · rename_i hbelow
        have hcell := hwritten.below (top (s.bottom (l :: ls)) + r - s.y) k hrk.2
        have hplace : s.roll.ret.row + (top (s.bottom (l :: ls)) + r - s.y) =
            top (s.bottom (l :: ls)) + r := Nat.add_sub_cancel' (Nat.not_lt.mp hbelow)
        rw [hplace] at hcell
        exact hcell
    · rw [← hrow]
      exact ht.y.symm

end Screen

/-- Whatever is written without an escape character, and in whatever calls: the screen is a
window on the roll on which the same is written. -/
theorem text_viewed {erase : BitVec 8} {s₀ s : Console} {bytes : List (BitVec 8)}
    (h : Console.Written erase s₀ bytes s) (hc : s₀.Coherent) (hn : s₀.state = .normal)
    (hy : s₀.curPosY.toNat < DISPLAY_LINE_NR) (hbytes : ∀ c ∈ bytes, c ≠ 0x1B) :
    s.screen.Views (bytes.foldl (fun p c => Screen.onRoll erase c p) s₀.screen.roll) := by
  have hview := Screen.views_roll (s := s₀.screen) hn hy
  rw [h.eq_feed, (hc.shows_feed erase bytes).screen]
  exact hview.write erase hbytes

/-- `A`, a backspace, `B` and a line feed on the last line. -/
theorem text_viewed_overtyped : ∃ s,
    Console.Written 0x7F (Console.console80 0xB8000) [0x41, 0x08, 0x42, 0x0A] s ∧
      s.screen.grid 23 0 = 0x0742 := by
  have hc : (Console.console80 0xB8000).Coherent :=
    ⟨by decide, by decide, by decide, by decide, by decide, by decide, by decide, by decide⟩
  have hwritten := Console.written_feed 0x7F (Console.console80 0xB8000) [0x41, 0x08, 0x42, 0x0A]
  have hview := text_viewed hwritten hc rfl (by decide) (by decide)
  refine ⟨_, hwritten, ?_⟩
  have hcols : 0 < Screen.cols (Console.screen (Console.feed 0x7F (Console.console80 0xB8000)
      [0x41, 0x08, 0x42, 0x0A])) := by
    rw [← hview.cols]
    decide
  rw [hview.shown 23 0 ⟨by decide, hcols⟩]
  decide

end Driver

/-! ## The log of the kernel -/

namespace Kernel
namespace Format

open Lib Driver

/-- What the messages come to: the memory that `%n` writes, and the lines they consist of. -/
structure Log where
  mem : Bytes32
  lines : List (List (BitVec 8))

/-- A message of lines, each ended by a newline, that is seen whole. -/
inductive Logs (a : Log) : Message → Log → Prop
  | message {items : List Item} {args args' : List U32} {ls : List (List (BitVec 8))}
      {mem' : Bytes32} (hitems : ∀ x ∈ items, x.Proper)
      (hrun : Run Puts ⟨args, [], a.mem⟩ items ⟨args', ls.flatMap (· ++ [ASC_NL]), mem'⟩)
      (hls : ∀ l ∈ ls, ∀ c ∈ l, Console.Printable c)
      (hshort : (ls.flatMap Screen.lineBytes).length < 1024) :
      Logs a ⟨items, args⟩ ⟨mem', a.lines ++ ls⟩

theorem post_printable {c : BitVec 8} (hc : Console.Printable c) : kernelTermios.post c = [c] := by
  have hcr : ¬ kernelTermios.Processes O_CRNL := by decide
  have hret : ¬ kernelTermios.Processes O_NLRET := by decide
  have hupper : ¬ kernelTermios.Processes O_LCUC := by decide
  have hnl : c ≠ ASC_NL := by
    intro h
    rw [h] at hc
    exact absurd hc.1 (by decide)
  have hnewline : kernelTermios.newline c = c := by
    rw [Termios.newline, if_neg fun h => hcr h.2, if_neg fun h => hret h.2]
  rw [Termios.post, if_neg fun h => hnl (hnewline ▸ h.1), if_neg hupper, hnewline]
  rfl

/-- Output processing of lines. -/
theorem postAll_lines {ls : List (List (BitVec 8))}
    (hls : ∀ l ∈ ls, ∀ c ∈ l, Console.Printable c) :
    kernelTermios.postAll (ls.flatMap (· ++ [ASC_NL])) = ls.flatMap Screen.lineBytes := by
  rw [Termios.postAll, List.flatMap_assoc]
  refine List.flatMap_congr fun l hl => ?_
  have hchars : l.flatMap kernelTermios.post = l := by
    rw [List.flatMap_congr fun c hc => post_printable (hls l hl c hc)]
    exact List.flatMap_singleton' l
  have hnl : [ASC_NL].flatMap kernelTermios.post = [ASC_CR, ASC_NL] := by decide
  rw [List.flatMap_append, hchars, hnl, Screen.lineBytes]

theorem logs_run {ms : List Message} {mem : Bytes32} {a : Log} (h : Run Logs ⟨mem, []⟩ ms a)
    {s : Speaker} (hmem : s.mem = mem) (ht : s.terminal.tty.termios = kernelTermios)
    (hidle : Idle s) :
    ∃ s', Run Printks s ms s' ∧ s'.mem = a.mem ∧ (∀ l ∈ a.lines, ∀ c ∈ l, Console.Printable c) ∧
      s'.terminal.console = s.terminal.console.feed (kernelTermios.cCc V_ERASE)
        (a.lines.flatMap Screen.lineBytes) ∧
      s'.terminal.tty.termios = kernelTermios ∧ Idle s' := by
  induction h with
  | nil => exact ⟨s, Run.nil, hmem, fun _ hl => absurd hl List.not_mem_nil, rfl, ht, hidle⟩
  | @snoc _ a _ _ _ hl ih =>
    obtain ⟨u, hrun, humem, hlines, hconsole, hut, huidle⟩ := ih
    cases hl with
    | @message items args args' ls mem' hitems hputs hls hshort =>
      rw [← humem] at hputs
      have hpost := postAll_lines hls
      have hlen := Termios.postAll_length (t := kernelTermios) (ls.flatMap (· ++ [ASC_NL]))
      rw [hpost] at hlen
      obtain ⟨r, hr, _, _, hrmem, hridle, hrt, hrconsole⟩ :=
        printk_text hitems huidle hputs (show _ < 1024 by omega)
      rw [hut, seen_whole (by rw [hpost]; exact hshort), hpost] at hrconsole
      refine ⟨r.speaker, hrun.snoc ⟨r, hr, rfl⟩, hrmem, fun l hl => ?_, ?_, hrt.trans hut, hridle⟩
      · exact (List.mem_append.mp hl).elim (hlines l) (hls l)
      · rw [hrconsole, hconsole, List.flatMap_append, Console.feed_append]

/-- After any messages the screen shows the last rows of the page: what was there, and below it
the lines of the messages, one after the other, each in the rows it takes. -/
theorem log_shown {ms : List Message} {mem : Bytes32} {a : Log} (h : Run Logs ⟨mem, []⟩ ms a)
    {s : Speaker} (hmem : s.mem = mem) (ht : s.terminal.tty.termios = kernelTermios)
    (hidle : Idle s) (hc : s.terminal.console.Coherent)
    (hnormal : s.terminal.console.state = .normal)
    (hy : s.terminal.console.curPosY.toNat < DISPLAY_LINE_NR) :
    ∃ s', Run Printks s ms s' ∧ s'.terminal.console.Coherent ∧
      s.terminal.console.screen.Reads a.lines s'.terminal.console.screen := by
  obtain ⟨s', hrun, -, hlines, hconsole, -, -⟩ := logs_run h hmem ht hidle
  have hshows := hc.shows_feed (kernelTermios.cCc V_ERASE) (a.lines.flatMap Screen.lineBytes)
  rw [← hconsole] at hshows
  refine ⟨s', hrun, hshows.coherent, ?_⟩
  rw [hshows.screen]
  have hwide : 0 < s.terminal.console.cols := by
    have hcols := hc.wide
    omega
  exact Screen.reads_lines (s := s.terminal.console.screen) hnormal hc.x_le hwide hy _ hlines

/-- `hd\n` on the last line of a screen: it is in the line above when the cursor is back there. -/
theorem log_shown_newline : ∃ s', Run Printks firstSpeaker
    [⟨[.byte 0x68, .byte 0x64, .byte 0x0A], []⟩] s' ∧
      s'.terminal.console.screen.grid 23 0 = 0x0768 ∧
      s'.terminal.console.screen.grid 23 1 = 0x0764 ∧ s'.terminal.console.screen.x = 0 := by
  have hbyte : ∀ out c, Puts ⟨[], out, sampleMem⟩ (.byte c) ⟨[], out ++ [c], sampleMem⟩ :=
    fun _ c => .byte c
  have hrun : Run Puts ⟨[], [], sampleMem⟩ [.byte 0x68, .byte 0x64, .byte 0x0A]
      ⟨[], [[0x68, 0x64]].flatMap (· ++ [ASC_NL]), sampleMem⟩ :=
    ((Run.single (hbyte [] _)).snoc (hbyte [_] _)).snoc (hbyte [_, _] _)
  have hlogs : Run Logs ⟨sampleMem, []⟩ [⟨[.byte 0x68, .byte 0x64, .byte 0x0A], []⟩]
      ⟨sampleMem, [[0x68, 0x64]]⟩ :=
    Run.single (.message (by decide) hrun (by decide) (by decide))
  have hc : firstSpeaker.terminal.console.Coherent :=
    ⟨by decide, by decide, by decide, by decide, by decide, by decide, by decide, by decide⟩
  obtain ⟨s', hs', -, hreads⟩ := log_shown hlogs (s := firstSpeaker) rfl rfl
    ⟨(Terminal.typed_valid kernelTermios [] []).writeQ, by decide⟩ hc rfl (by decide)
  refine ⟨s', hs', ?_, ?_, hreads.x (by decide)⟩
  · rw [hreads.grid 23 0 (by decide)]
    decide
  · rw [hreads.grid 23 1 (by decide)]
    decide

end Format
end Kernel
end CherryOS
