import CherryOS.Driver.Screen

/-!
# Scrolling by the hardware

What a run of `console_write` calls does is what its bytes do one after another, however they
are split over the calls.  Where in the video memory a screen lies makes no difference to it.
-/

namespace CherryOS
namespace Driver

open Lib Kernel

/-! ## The bytes of a queue -/

namespace TtyQueue

def bytes (q : TtyQueue) : Nat → List (BitVec 8)
  | 0 => []
  | n + 1 => q.buf q.tail :: q.incTail.bytes n

/-- What the next `console_write` takes. -/
def pending (q : TtyQueue) : List (BitVec 8) := q.bytes q.READ_SPACE.toNat

/-- A queue with one byte in it. -/
def ofByte (c : BitVec 8) : TtyQueue := { head := 1, tail := 0, buf := fun _ => c }

theorem pending_ofByte (c : BitVec 8) : (ofByte c).pending = [c] := by
  have hspace : (ofByte c).READ_SPACE = 1 := show ((1 : U32) - 0) &&& (1024 - 1) = 1 by decide
  rw [pending, hspace]
  rfl

end TtyQueue

namespace Console

/-- One byte after another. -/
def feed (erase : BitVec 8) (s : Console) (bytes : List (BitVec 8)) : Console :=
  bytes.foldl (writeByte erase) s

theorem feed_append (erase : BitVec 8) (s : Console) (p q : List (BitVec 8)) :
    s.feed erase (p ++ q) = (s.feed erase p).feed erase q :=
  List.foldl_append

theorem writeLoop_eq (nr : Nat) (tty : TtyStruct) (s : Console) :
    (writeLoop nr tty s).2 = s.feed (tty.cCc V_ERASE) (tty.writeQ.bytes nr) := by
  induction nr generalizing tty s with
  | zero => rfl
  | succ nr ih => exact ih _ _

theorem consoleWrite_eq (tty : TtyStruct) (s : Console) :
    (s.consoleWrite tty).2.1 = s.feed (tty.cCc V_ERASE) tty.writeQ.pending :=
  writeLoop_eq _ tty s

/-- The states in which `console_write` leaves a console that has been given some bytes, in
any number of calls. -/
inductive Written (erase : BitVec 8) (s₀ : Console) : List (BitVec 8) → Console → Prop
  | start : Written erase s₀ [] s₀
  | call {bytes : List (BitVec 8)} {s : Console} (tty : TtyStruct)
      (h : Written erase s₀ bytes s) (herase : tty.cCc V_ERASE = erase) :
      Written erase s₀ (bytes ++ tty.writeQ.pending) (s.consoleWrite tty).2.1

theorem Written.eq_feed {erase : BitVec 8} {s₀ s : Console} {bytes : List (BitVec 8)}
    (h : Written erase s₀ bytes s) : s = s₀.feed erase bytes := by
  induction h with
  | start => rfl
  | call tty _ herase ih => rw [consoleWrite_eq, herase, ih, feed_append]

/-- Any bytes can be written, one to a call. -/
theorem written_feed (erase : BitVec 8) (s₀ : Console) (bytes : List (BitVec 8)) :
    Written erase s₀ bytes (s₀.feed erase bytes) := by
  induction bytes using List.reverseRecOn with
  | nil => exact .start
  | append_singleton bytes c ih =>
    have hcall := ih.call { cCc := fun _ => erase, writeQ := TtyQueue.ofByte c } rfl
    rw [consoleWrite_eq, TtyQueue.pending_ofByte] at hcall
    rw [feed_append]
    exact hcall

/-! ## The screen after a run -/

theorem Coherent.shows_feed {s : Console} (h : s.Coherent) (erase : BitVec 8)
    (bytes : List (BitVec 8)) : (s.feed erase bytes).Shows (s.screen.write erase bytes) := by
  induction bytes generalizing s with
  | nil => exact ⟨h, rfl⟩
  | cons c bytes ih =>
    have hstep := h.shows_writeByte erase c
    have hrest := ih hstep.coherent
    rw [hstep.screen] at hrest
    exact hrest

/-- Two consoles with the same coordinates, parser state and visible grid, which the display
controller reads from where its registers say. -/
structure SameScreen (s t : Console) : Prop where
  cols : s.displayCharPerLine = t.displayCharPerLine
  state : s.state = t.state
  x : s.curPosX = t.curPosX
  y : s.curPosY = t.curPosY
  savedX : s.savedCurPosX = t.savedCurPosX
  savedY : s.savedCurPosY = t.savedCurPosY
  grid : ∀ r k, r < DISPLAY_LINE_NR → k < s.cols → s.shownCell r k = t.shownCell r k

theorem sameScreen_iff {s t : Console} : SameScreen s t ↔ s.screen = t.screen := by
  constructor
  · intro h
    have hcursor : s.cursor = t.cursor := by
      rw [cursor, cursor, cols, cols, h.cols, h.state, h.x, h.y, h.savedX, h.savedY]
    rw [screen, screen, ← hcursor]
    exact Screen.withGrid_congr fun r k hshown => h.grid r k hshown.1 hshown.2
  · intro h
    have hbyte : ∀ {a b : BitVec 8}, a.toNat = b.toNat → a = b := BitVec.eq_of_toNat_eq
    have hcols : s.cols = t.cols := congrArg Screen.cols h
    refine ⟨hbyte hcols, congrArg Screen.state h, hbyte (congrArg Screen.x h),
      hbyte (congrArg Screen.y h), hbyte (congrArg Screen.savedX h),
      hbyte (congrArg Screen.savedY h), fun r k hr hk => ?_⟩
    have hgrid : s.screen.grid r k = t.screen.grid r k := by rw [h]
    have hs : s.screen.grid r k = s.shownCell r k :=
      if_pos (⟨hr, hk⟩ : s.cursor.Shown r k)
    have ht : t.screen.grid r k = t.shownCell r k :=
      if_pos (⟨hr, (hcols ▸ hk : k < t.cols)⟩ : t.cursor.Shown r k)
    rw [← hs, ← ht, hgrid]

/-- Consoles whose screens lie in different places stay alike. -/
theorem scrolling_transparent {s t s' t' : Console} {erase : BitVec 8} {bytes : List (BitVec 8)}
    (hs : s.Coherent) (ht : t.Coherent) (h : SameScreen s t) (hs' : Written erase s bytes s')
    (ht' : Written erase t bytes t') : SameScreen s' t' := by
  rw [sameScreen_iff] at h ⊢
  rw [hs'.eq_feed, ht'.eq_feed, (hs.shows_feed erase bytes).screen,
    (ht.shows_feed erase bytes).screen, h]

/-- A blank console of 80 columns with its cursor on the last line, shown from `origin`. -/
def console80 (origin : U32) : Console :=
  { displayCharPerLine := 80, state := .normal, scrollOriginMem := origin,
    scrollEndMem := origin + 4000, curPosMem := origin + 3840, curPosX := 0, curPosY := 24,
    savedCurPosX := 0, savedCurPosY := 0, store := { mem := fun _ => 0, stored := [] },
    startHigh := regHigh origin, startLow := regLow origin }

/-- A terminal with a line feed to be written. -/
def lineFeedTty : TtyStruct := { cCc := fun _ => 0x7F, writeQ := TtyQueue.ofByte 0x0A }

/-- One of the two moves its start and the other copies its rows. -/
theorem scrolling_transparent_lineFeed :
    ((console80 0xB8000).consoleWrite lineFeedTty).2.1.startAddr = 0xB80A0 ∧
      ((console80 0xBB060).consoleWrite lineFeedTty).2.1.startAddr = 0xB8000 ∧
      SameScreen ((console80 0xB8000).consoleWrite lineFeedTty).2.1
        ((console80 0xBB060).consoleWrite lineFeedTty).2.1 := by
  have hs : (console80 0xB8000).Coherent :=
    ⟨by decide, by decide, by decide, by decide, by decide, by decide, by decide, by decide⟩
  have ht : (console80 0xBB060).Coherent :=
    ⟨by decide, by decide, by decide, by decide, by decide, by decide, by decide, by decide⟩
  refine ⟨by decide +kernel, by decide +kernel, ?_⟩
  exact scrolling_transparent hs ht ⟨rfl, rfl, rfl, rfl, rfl, rfl, fun _ _ _ _ => rfl⟩
    (Written.start.call lineFeedTty rfl) (Written.start.call lineFeedTty rfl)

end Console

end Driver
end CherryOS
