import CherryOS.Driver.Console

/-!
# The screen

What a console shows: rows of cells with a cursor that may stand after the last cell of its
row, or below the last row.  There is no memory and there are no addresses here: scrolling
moves the rows, and a row that leaves the screen is gone.
-/

namespace CherryOS
namespace Driver

structure Screen where
  cols : Nat
  state : ParseState
  x : Nat
  y : Nat
  savedX : Nat
  savedY : Nat
  grid : Nat → Nat → BitVec 16

namespace Screen

/-- The rows and columns that are shown. -/
def Shown (s : Screen) (r k : Nat) : Prop := r < DISPLAY_LINE_NR ∧ k < s.cols

instance (s : Screen) (r k : Nat) : Decidable (s.Shown r k) := by
  unfold Shown
  infer_instance

/-- The cells that are shown are those of `g`. -/
def withGrid (s : Screen) (g : Nat → Nat → BitVec 16) : Screen :=
  { s with grid := fun r k => if s.Shown r k then g r k else 0 }

theorem withGrid_congr {s : Screen} {g g' : Nat → Nat → BitVec 16}
    (h : ∀ r k, s.Shown r k → g r k = g' r k) : s.withGrid g = s.withGrid g' := by
  unfold withGrid
  congr 1
  funext r k
  split
  · rename_i hshown
    exact h r k hshown
  · rfl

def goto (s : Screen) (x y : Nat) : Screen :=
  if s.cols < x ∨ DISPLAY_LINE_NR < y then s else { s with x := x, y := y }

def put (s : Screen) (x y : Nat) (v : BitVec 16) : Screen :=
  s.withGrid fun r k => if r = y ∧ k = x then v else s.grid r k

def scrollUp (s : Screen) : Screen :=
  s.withGrid fun r k => if r + 1 < DISPLAY_LINE_NR then s.grid (r + 1) k else BLANK

def scrollDown (s : Screen) : Screen :=
  s.withGrid fun r k => if r = 0 then BLANK else s.grid (r - 1) k

def lineFeed (s : Screen) : Screen :=
  if s.y + 1 < DISPLAY_LINE_NR then { s with y := s.y + 1 } else s.scrollUp

theorem lineFeed_x (s : Screen) : s.lineFeed.x = s.x := by
  rw [lineFeed]
  split <;> rfl

def reverseLineFeed (s : Screen) : Screen :=
  if 0 < s.y then { s with y := s.y - 1 } else s.scrollDown

def print (c : BitVec 8) (s : Screen) : Screen :=
  let s := if s.cols ≤ s.x then lineFeed { s with x := 0 } else s
  { s.put s.x s.y (0x0700 + c.setWidth 16) with x := s.x + 1 }

/-- To the next multiple of 8, which may be on the next line. -/
def tab (s : Screen) : Screen :=
  let x := s.x + (8 - s.x % 8)
  if s.cols < x then lineFeed { s with x := x - s.cols } else { s with x := x }

def left (s : Screen) : Screen := { s with x := s.x - 1 }

def delete (s : Screen) : Screen :=
  if s.x = 0 then s else s.left.put (s.x - 1) s.y BLANK

def normalByte (erase c : BitVec 8) (s : Screen) : Screen :=
  if 0x1F < c.toInt ∧ c.toInt < 0x7F then s.print c
  else if c = 0x1B then { s with state := .esi }
  else if c = 0x0A ∨ c = 0x0B ∨ c = 0x0C then s.lineFeed
  else if c = 0x0D then { s with x := 0 }
  else if c.toInt = erase.toNat then s.delete
  else if c = 0x08 then s.left
  else if c = 0x09 then s.tab
  else s

def escapeByte (c : BitVec 8) (s : Screen) : Screen :=
  let s := { s with state := .normal }
  if c = 0x5B then { s with state := .csi1 }
  else if c = 0x45 then s.goto 0 (s.y + 1)
  else if c = 0x44 then s.lineFeed
  else if c = 0x4D then s.reverseLineFeed
  else if c = 0x37 then { s with savedX := s.x, savedY := s.y }
  else if c = 0x38 then s.goto s.savedX s.savedY
  else s

def writeByte (erase : BitVec 8) (s : Screen) (c : BitVec 8) : Screen :=
  if s.state = .normal then s.normalByte erase c
  else if s.state = .esi then s.escapeByte c
  else s

def write (erase : BitVec 8) (s : Screen) (bytes : List (BitVec 8)) : Screen :=
  bytes.foldl (writeByte erase) s

end Screen

/-! ## The screen of a console -/

namespace Console

open Lib Kernel

def cols (s : Console) : Nat := s.displayCharPerLine.toNat

/-- Where the display controller starts to read: register 12 has the upper six bits of a number
of cells and register 13 the lower eight. -/
def startAddr (s : Console) : U32 :=
  VIDEO_MEM_START_ADDR +
    BitVec.ofNat 32 (2 * (s.startHigh.toNat % 2 ^ 6 * 2 ^ 8 + s.startLow.toNat))

/-- The cell that the controller shows in a row and a column. -/
def shownCell (s : Console) (r k : Nat) : BitVec 16 :=
  s.store.cell s.startAddr (2 * (s.cols * r + k))

/-- The screen without its cells. -/
def cursor (s : Console) : Screen :=
  { cols := s.cols, state := s.state, x := s.curPosX.toNat, y := s.curPosY.toNat,
    savedX := s.savedCurPosX.toNat, savedY := s.savedCurPosY.toNat, grid := fun _ _ => 0 }

def screen (s : Console) : Screen := s.cursor.withGrid s.shownCell

/-- The variables of a console agree with each other and with the controller's registers, and its
screen is in the video memory.  The cursor may stand after the end of a line and on the line
below the last. -/
structure Coherent (s : Console) : Prop where
  wide : 8 ≤ s.cols
  x_le : s.curPosX.toNat ≤ s.cols
  y_le : s.curPosY.toNat ≤ DISPLAY_LINE_NR
  pos : s.curPosMem =
    s.scrollOriginMem + s.curPosY.setWidth 32 * s.sizePerLine + s.curPosX.setWidth 32 * 2
  ending : s.scrollEndMem = s.scrollOriginMem + s.sizePerLine * BitVec.ofNat 32 DISPLAY_LINE_NR
  start_le : VIDEO_MEM_START_ADDR.toNat ≤ s.scrollOriginMem.toNat
  end_le : s.scrollOriginMem.toNat + 2 * (s.cols * DISPLAY_LINE_NR) ≤ VIDEO_MEM_END_ADDR.toNat
  start : s.startAddr = s.scrollOriginMem

section
variable {s s' : Console} {r k n : Nat}

/-! ### Addresses as offsets -/

theorem sizePerLine_eq (s : Console) : s.sizePerLine = BitVec.ofNat 32 (2 * s.cols) := by
  rw [sizePerLine, ← BitVec.ofNat_toNat, Nat.mul_comm, BitVec.ofNat_mul]
  rfl

theorem sizePerLine_mul (s : Console) (n : Nat) :
    s.sizePerLine * BitVec.ofNat 32 n = BitVec.ofNat 32 (2 * (s.cols * n)) := by
  rw [sizePerLine_eq, ← BitVec.ofNat_mul, Nat.mul_assoc]

theorem cellAddr_eq (s : Console) (x y : BitVec 8) :
    s.scrollOriginMem + y.setWidth 32 * s.sizePerLine + x.setWidth 32 * 2 =
      s.scrollOriginMem + BitVec.ofNat 32 (2 * (s.cols * y.toNat + x.toNat)) := by
  have hx : x.setWidth 32 * 2 = BitVec.ofNat 32 (2 * x.toNat) := by
    rw [← BitVec.ofNat_toNat, Nat.mul_comm, BitVec.ofNat_mul]
    rfl
  rw [mul_comm (y.setWidth 32), ← BitVec.ofNat_toNat 32 y, sizePerLine_mul, hx, Store.add_ofNat_add,
    ← Nat.mul_add]

/-- Bytes are added and subtracted as words where nothing is lost. -/
theorem setWidth_add {a b : BitVec 8} (h : a.toNat + b.toNat < 256) :
    (a + b).setWidth 32 = a.setWidth 32 + b.setWidth 32 := by
  refine BitVec.eq_of_toNat_eq ?_
  simp only [BitVec.toNat_setWidth, BitVec.toNat_add]
  omega

theorem setWidth_sub {a b : BitVec 8} (h : b.toNat ≤ a.toNat) :
    (a - b).setWidth 32 = a.setWidth 32 - b.setWidth 32 := by
  refine BitVec.eq_of_toNat_eq ?_
  simp only [BitVec.toNat_setWidth, BitVec.toNat_sub]
  omega

/-- A row and a column as one number. -/
theorem cell_lt (hr : r < n) (hk : k < s.cols) : s.cols * r + k < s.cols * n := by
  calc s.cols * r + k < s.cols * r + s.cols := by omega
    _ = s.cols * (r + 1) := (Nat.mul_succ _ _).symm
    _ ≤ s.cols * n := Nat.mul_le_mul_left _ hr

theorem cell_inj {r' k' : Nat} (hk : k < n) (hk' : k' < n) (h : n * r + k = n * r' + k') :
    r = r' ∧ k = k' := by
  have hdiv := congrArg (· / n) h
  have hmod := congrArg (· % n) h
  simp only [Nat.mul_add_div (by omega : 0 < n), Nat.mul_add_mod, Nat.div_eq_of_lt hk,
    Nat.div_eq_of_lt hk', Nat.mod_eq_of_lt hk, Nat.mod_eq_of_lt hk', Nat.add_zero] at hdiv hmod
  exact ⟨hdiv, hmod⟩

/-- The cells change and the cursor does not. -/
theorem screen_withGrid {g : Nat → Nat → BitVec 16} (hcursor : s'.cursor = s.cursor)
    (hg : ∀ r k, r < DISPLAY_LINE_NR → k < s.cols → s'.shownCell r k = g r k) :
    s'.screen = s.screen.withGrid g := by
  rw [screen, hcursor]
  exact Screen.withGrid_congr fun r k h => hg r k h.1 h.2

/-! ### Where the screen starts -/

theorem Coherent.shownCell_eq (h : s.Coherent) (r k : Nat) :
    s.shownCell r k = s.store.cell s.scrollOriginMem (2 * (s.cols * r + k)) := by
  rw [shownCell, h.start]

/-- A cell of the screen in the memory. -/
theorem Coherent.grid_eq (h : s.Coherent) (hr : r < DISPLAY_LINE_NR) (hk : k < s.cols) :
    s.screen.grid r k = s.store.cell s.scrollOriginMem (2 * (s.cols * r + k)) :=
  (if_pos (⟨hr, hk⟩ : s.cursor.Shown r k)).trans (h.shownCell_eq r k)

/-- The origin as a number of cells. -/
theorem Coherent.origin_offset (h : s.Coherent) :
    ∃ d, s.scrollOriginMem = VIDEO_MEM_START_ADDR + BitVec.ofNat 32 (2 * d) ∧ d < 2 ^ 14 := by
  refine ⟨_, h.start.symm, ?_⟩
  have hlow := s.startLow.isLt
  have hhigh := Nat.mod_lt s.startHigh.toNat (show 0 < 2 ^ 6 by decide)
  omega

theorem startAddr_of_zero (hhigh : s.startHigh = 0) (hlow : s.startLow = 0) :
    s.startAddr = VIDEO_MEM_START_ADDR := by
  rw [startAddr, hhigh, hlow]
  decide

/-- The two registers hold the number of a cell that fits into fourteen bits. -/
theorem updateScroll_startAddr {d : Nat} (hd : d < 2 ^ 14)
    (horigin : s.scrollOriginMem = VIDEO_MEM_START_ADDR + BitVec.ofNat 32 (2 * d)) :
    s.updateScroll.startAddr = s.scrollOriginMem := by
  have hoffset : (s.scrollOriginMem - VIDEO_MEM_START_ADDR).toNat = 2 * d := by
    rw [horigin, add_sub_cancel_left, BitVec.toNat_ofNat]
    omega
  have hhigh : (regHigh s.scrollOriginMem).toNat = d / 2 ^ 8 := by
    rw [regHigh, BitVec.toNat_setWidth, BitVec.toNat_ushiftRight, hoffset,
      Nat.shiftRight_eq_div_pow]
    omega
  have hlow : (regLow s.scrollOriginMem).toNat = d % 2 ^ 8 := by
    rw [regLow, BitVec.toNat_setWidth, BitVec.toNat_ushiftRight, hoffset,
      Nat.shiftRight_eq_div_pow]
    omega
  have hcell : d / 2 ^ 8 % 2 ^ 6 * 2 ^ 8 + d % 2 ^ 8 = d := by omega
  rw [horigin]
  show VIDEO_MEM_START_ADDR + BitVec.ofNat 32 (2 * ((regHigh s.scrollOriginMem).toNat % 2 ^ 6 *
    2 ^ 8 + (regLow s.scrollOriginMem).toNat)) = _
  rw [hhigh, hlow, hcell]

/-- A screen that scrolls up is shown from its new origin. -/
theorem Coherent.scrollUp_start (h : s.Coherent) :
    s.scrollUp.startAddr = s.scrollUp.scrollOriginMem := by
  obtain ⟨d, horigin, hd⟩ := h.origin_offset
  have hline : s.cols < 2 ^ 8 := s.displayCharPerLine.isLt
  rw [Console.scrollUp]
  split
  · exact updateScroll_startAddr (d := 0) (by decide) rfl
  · rename_i hroom
    have hend := h.end_le
    have hvideo : VIDEO_MEM_START_ADDR.toNat = 0xB8000 ∧ VIDEO_MEM_END_ADDR.toNat = 0xBC000 :=
      ⟨rfl, rfl⟩
    have hnat : s.scrollOriginMem.toNat = VIDEO_MEM_START_ADDR.toNat + 2 * d := by
      rw [horigin, BitVec.toNat_add, BitVec.toNat_ofNat]
      omega
    refine updateScroll_startAddr (d := d + s.cols) (by omega) ?_
    show s.scrollOriginMem + s.sizePerLine = _
    rw [horigin, sizePerLine_eq, Store.add_ofNat_add, Nat.mul_add]

/-! ### Storing and scrolling -/

theorem Coherent.size_le (h : s.Coherent) : 2 * (s.cols * DISPLAY_LINE_NR) ≤ 0xBC000 := by
  have hvideo : VIDEO_MEM_END_ADDR.toNat = 0xBC000 := rfl
  have hend := h.end_le
  omega

theorem Coherent.cols_lt (_ : s.Coherent) : s.cols < 2 ^ 8 := s.displayCharPerLine.isLt

/-- A cell stored at the cursor, on or below the screen. -/
theorem Coherent.screen_put (h : s.Coherent) (hx : s.curPosX.toNat < s.cols) (v : BitVec 16) :
    { s with store := s.store.put s.curPosMem v }.screen =
      s.screen.put s.curPosX.toNat s.curPosY.toNat v := by
  have hsize := h.size_le
  have hline := h.cols_lt
  have hplace : s.cols * s.curPosY.toNat + s.curPosX.toNat < s.cols * (DISPLAY_LINE_NR + 1) :=
    cell_lt (Nat.lt_succ_of_le h.y_le) hx
  rw [Nat.mul_succ] at hplace
  have hpos := h.pos.trans (s.cellAddr_eq s.curPosX s.curPosY)
  refine screen_withGrid rfl fun r k hr hk => ?_
  have hcell := cell_lt hr hk
  show (s.store.put s.curPosMem v).cell s.startAddr (2 * (s.cols * r + k)) = _
  rw [h.start, hpos]
  by_cases hat : r = s.curPosY.toNat ∧ k = s.curPosX.toNat
  · rw [if_pos hat, hat.1, hat.2]
    exact Store.cell_put _ _ _ _
  · have hne : s.cols * r + k ≠ s.cols * s.curPosY.toNat + s.curPosX.toNat := fun heq =>
      hat (cell_inj hk hx heq)
    rw [if_neg hat]
    refine (Store.cell_put_of_apart (by omega) ?_ ?_).trans (h.grid_eq hr hk).symm
    · show 2 * (s.cols * r + k) < _
      omega
    · show 2 * (s.cols * r + k) + 2 ≤ _ ∨ _ ≤ 2 * (s.cols * r + k)
      omega

theorem base_zero (a : U32) : a = a + BitVec.ofNat 32 0 := (BitVec.add_zero a).symm

theorem Coherent.screen_scrollDown (h : s.Coherent) :
    s.scrollDown.screen = s.screen.scrollDown := by
  have hsize := h.size_le
  have hline := h.cols_lt
  have hrows : s.cols * DISPLAY_LINE_NR = s.cols * (DISPLAY_LINE_NR - 1) + s.cols :=
    Nat.mul_succ _ _
  -- first the rows are copied, then the first one is filled
  obtain ⟨copied, hcopied⟩ : ∃ copied, copied = s.store.copyDown
    (s.scrollOriginMem + BitVec.ofNat 32 (2 * s.cols)) s.scrollOriginMem
    (s.cols * (DISPLAY_LINE_NR - 1)) := ⟨_, rfl⟩
  have hstore : s.scrollDown.store = copied.fill s.scrollOriginMem BLANK s.cols := by
    rw [hcopied]
    rfl
  refine screen_withGrid rfl fun r k hr hk => ?_
  have hcell := cell_lt hr hk
  show s.scrollDown.store.cell s.startAddr (2 * (s.cols * r + k)) = _
  rw [h.start, hstore]
  cases r with
  | zero =>
    have hfill := Store.cell_fill (s := copied) (v := BLANK) (base_zero s.scrollOriginMem)
      (by omega) hk
    rw [Nat.zero_add] at hfill
    rw [if_pos rfl, Nat.mul_zero, Nat.zero_add]
    exact hfill
  | succ r =>
    have hr' : r < DISPLAY_LINE_NR - 1 := by omega
    have hcols : s.cols * (r + 1) = s.cols * r + s.cols := Nat.mul_succ _ _
    have hplace : 2 * (s.cols * (r + 1) + k) = 2 * s.cols + 2 * (s.cols * r + k) := by omega
    rw [if_neg (Nat.succ_ne_zero r), Store.cell_fill_of_apart (base_zero _) (by omega) (by omega)
      (by omega), hcopied, Nat.add_sub_cancel, hplace, Store.cell_copyDown rfl (base_zero _)
      (Nat.zero_le _) (by omega) (cell_lt hr' hk), Nat.zero_add]
    exact (h.grid_eq (by omega) hk).symm

theorem Coherent.ending_eq (h : s.Coherent) :
    s.scrollEndMem = s.scrollOriginMem + BitVec.ofNat 32 (2 * (s.cols * DISPLAY_LINE_NR)) :=
  h.ending.trans (congrArg _ (s.sizePerLine_mul _))

/-- The last row of a screen at the start of the video memory. -/
theorem lastRow_eq (s : Console) :
    VIDEO_MEM_START_ADDR + s.sizePerLine * BitVec.ofNat 32 DISPLAY_LINE_NR - s.sizePerLine =
      VIDEO_MEM_START_ADDR + BitVec.ofNat 32 (2 * (s.cols * (DISPLAY_LINE_NR - 1))) := by
  have hlines : BitVec.ofNat 32 DISPLAY_LINE_NR = BitVec.ofNat 32 (DISPLAY_LINE_NR - 1) + 1 := rfl
  rw [hlines, mul_add, mul_one, ← add_assoc, add_sub_cancel_right, sizePerLine_mul]

/-- The screen moves over the memory. -/
theorem Coherent.screen_scrollUp_move (h : s.Coherent)
    (hroom : ¬ VIDEO_MEM_END_ADDR < s.scrollEndMem + s.sizePerLine) :
    s.scrollUp.screen = s.screen.scrollUp := by
  have hsize := h.size_le
  have hline := h.cols_lt
  have hstart := h.scrollUp_start
  rw [scrollUp, if_neg hroom] at hstart ⊢
  refine screen_withGrid rfl fun r k hr hk => ?_
  have hnext : s.cols * (r + 1) = s.cols * r + s.cols := Nat.mul_succ _ _
  rw [shownCell, hstart]
  show (s.store.fill s.scrollEndMem BLANK s.cols).cell (s.scrollOriginMem + s.sizePerLine)
    (2 * (s.cols * r + k)) = _
  rw [sizePerLine_eq, Store.cell_add]
  by_cases hlast : r + 1 < DISPLAY_LINE_NR
  · have hcell := cell_lt hlast hk
    have hplace : 2 * s.cols + 2 * (s.cols * r + k) = 2 * (s.cols * (r + 1) + k) := by omega
    rw [if_pos hlast, hplace, Store.cell_fill_of_apart h.ending_eq (by omega) (by omega) (by omega)]
    exact (h.grid_eq hlast hk).symm
  · have hr' : r + 1 = DISPLAY_LINE_NR := by omega
    have hplace : 2 * s.cols + 2 * (s.cols * r + k) = 2 * (s.cols * DISPLAY_LINE_NR) + 2 * k := by
      rw [← hr']
      omega
    rw [if_neg hlast, hplace]
    exact Store.cell_fill h.ending_eq (by omega) hk

/-- The rows move to the start of the memory. -/
theorem Coherent.screen_scrollUp_copy (h : s.Coherent)
    (hfull : VIDEO_MEM_END_ADDR < s.scrollEndMem + s.sizePerLine) :
    s.scrollUp.screen = s.screen.scrollUp := by
  have hsize := h.size_le
  have hline := h.cols_lt
  have hrows : s.cols * DISPLAY_LINE_NR = s.cols * (DISPLAY_LINE_NR - 1) + s.cols :=
    Nat.mul_succ _ _
  obtain ⟨d, horigin, hd⟩ := h.origin_offset
  obtain ⟨copied, hcopied⟩ : ∃ copied, copied = s.store.copyUp VIDEO_MEM_START_ADDR
    (s.scrollOriginMem + s.sizePerLine) (s.cols * (DISPLAY_LINE_NR - 1)) := ⟨_, rfl⟩
  have hsource : s.scrollOriginMem + s.sizePerLine =
      VIDEO_MEM_START_ADDR + BitVec.ofNat 32 (2 * d + 2 * s.cols) := by
    rw [horigin, sizePerLine_eq, Store.add_ofNat_add]
  have hstore : s.scrollUp.store = copied.fill (VIDEO_MEM_START_ADDR + s.sizePerLine *
      BitVec.ofNat 32 DISPLAY_LINE_NR - s.sizePerLine) BLANK s.cols := by
    rw [hcopied, scrollUp, if_pos hfull]
    rfl
  have hnew : s.scrollUp.scrollOriginMem = VIDEO_MEM_START_ADDR := by
    rw [scrollUp, if_pos hfull]
    rfl
  have hcursor : s.scrollUp.cursor = s.cursor := by
    rw [scrollUp, if_pos hfull]
    rfl
  have hcols : s.scrollUp.cols = s.cols := congrArg Screen.cols hcursor
  refine screen_withGrid hcursor fun r k hr hk => ?_
  have hnext : s.cols * (r + 1) = s.cols * r + s.cols := Nat.mul_succ _ _
  rw [shownCell, h.scrollUp_start, hnew, hstore, hcols]
  by_cases hlast : r + 1 < DISPLAY_LINE_NR
  · have hcell := cell_lt (s := s) (r := r) (n := DISPLAY_LINE_NR - 1) (by omega) hk
    have hread := Store.cell_copyUp (s := s.store) (base_zero VIDEO_MEM_START_ADDR) hsource
      (Nat.zero_le _) (by omega) hcell
    have hplace : 2 * d + 2 * s.cols + 2 * (s.cols * r + k) =
        2 * d + 2 * (s.cols * (r + 1) + k) := by omega
    rw [Nat.zero_add, hplace, ← Store.cell_add, ← horigin, ← hcopied] at hread
    rw [if_pos hlast, Store.cell_fill_of_apart s.lastRow_eq (by omega) (by omega) (by omega), hread]
    exact (h.grid_eq hlast hk).symm
  · have hr' : r = DISPLAY_LINE_NR - 1 := by omega
    rw [if_neg hlast, hr', Nat.mul_add]
    exact Store.cell_fill s.lastRow_eq (by omega) hk

theorem Coherent.screen_scrollUp (h : s.Coherent) : s.scrollUp.screen = s.screen.scrollUp := by
  by_cases hfull : VIDEO_MEM_END_ADDR < s.scrollEndMem + s.sizePerLine
  · exact h.screen_scrollUp_copy hfull
  · exact h.screen_scrollUp_move hfull

theorem Coherent.ending_toNat (h : s.Coherent) : s.scrollEndMem.toNat =
    s.scrollOriginMem.toNat + 2 * (s.cols * DISPLAY_LINE_NR) := by
  have hsize := h.size_le
  have hend := h.end_le
  have hvideo : VIDEO_MEM_END_ADDR.toNat = 0xBC000 := rfl
  rw [h.ending_eq, BitVec.toNat_add, BitVec.toNat_ofNat]
  omega

/-! ### The operations -/

/-- A coherent console that shows `t`. -/
structure Shows (s : Console) (t : Screen) : Prop where
  coherent : s.Coherent
  screen : s.screen = t

theorem Coherent.scrollUp (h : s.Coherent) : s.scrollUp.Coherent := by
  have hline := h.cols_lt
  have hlines : DISPLAY_LINE_NR = 25 := rfl
  have hvideo : VIDEO_MEM_START_ADDR.toNat = 0xB8000 ∧ VIDEO_MEM_END_ADDR.toNat = 0xBC000 :=
    ⟨rfl, rfl⟩
  have hstart := h.start_le
  have hend := h.end_le
  have hmoved := h.scrollUp_start
  by_cases hfull : VIDEO_MEM_END_ADDR < s.scrollEndMem + s.sizePerLine
  · rw [Console.scrollUp, if_pos hfull] at hmoved ⊢
    refine ⟨h.wide, h.x_le, h.y_le, rfl, rfl, le_refl _, ?_, hmoved⟩
    show VIDEO_MEM_START_ADDR.toNat + 2 * (s.cols * DISPLAY_LINE_NR) ≤ _
    omega
  · rw [Console.scrollUp, if_neg hfull] at hmoved ⊢
    have hsize : s.sizePerLine.toNat = 2 * s.cols := by
      rw [sizePerLine_eq, BitVec.toNat_ofNat]
      omega
    have hfit : s.scrollOriginMem.toNat + 2 * (s.cols * DISPLAY_LINE_NR) + 2 * s.cols ≤
        VIDEO_MEM_END_ADDR.toNat := by
      have hle := BitVec.le_def.mp (BitVec.not_lt.mp hfull)
      rw [BitVec.toNat_add, h.ending_toNat, hsize] at hle
      omega
    refine ⟨h.wide, h.x_le, h.y_le, ?_, ?_, ?_, ?_, hmoved⟩
    · show s.curPosMem + s.sizePerLine = s.scrollOriginMem + s.sizePerLine +
        s.curPosY.setWidth 32 * s.sizePerLine + s.curPosX.setWidth 32 * 2
      rw [h.pos]
      ring
    · show s.scrollEndMem + s.sizePerLine = s.scrollOriginMem + s.sizePerLine + s.sizePerLine * _
      rw [h.ending]
      ring
    · show _ ≤ (s.scrollOriginMem + s.sizePerLine).toNat
      rw [BitVec.toNat_add, hsize]
      omega
    · show (s.scrollOriginMem + s.sizePerLine).toNat + 2 * (s.cols * DISPLAY_LINE_NR) ≤ _
      rw [BitVec.toNat_add, hsize]
      omega

theorem Coherent.shows_scrollUp (h : s.Coherent) : s.scrollUp.Shows s.screen.scrollUp :=
  ⟨h.scrollUp, h.screen_scrollUp⟩

theorem Coherent.shows_scrollDown (h : s.Coherent) : s.scrollDown.Shows s.screen.scrollDown :=
  ⟨⟨h.wide, h.x_le, h.y_le, h.pos, h.ending, h.start_le, h.end_le, h.start⟩, h.screen_scrollDown⟩

theorem Coherent.shows_cr (h : s.Coherent) : s.cr.Shows { s.screen with x := 0 } := by
  refine ⟨⟨h.wide, Nat.zero_le _, h.y_le, ?_, h.ending, h.start_le, h.end_le, h.start⟩, rfl⟩
  show s.curPosMem - s.curPosX.setWidth 32 * 2 =
    s.scrollOriginMem + s.curPosY.setWidth 32 * s.sizePerLine + 0 * 2
  rw [h.pos]
  ring

/-- The cursor goes to another column of its line. -/
theorem Coherent.shows_withX (h : s.Coherent) (x : BitVec 8) (pos : U32) (hx : x.toNat ≤ s.cols)
    (hpos : pos = s.curPosMem + x.setWidth 32 * 2 - s.curPosX.setWidth 32 * 2) :
    { s with curPosX := x, curPosMem := pos }.Shows { s.screen with x := x.toNat } := by
  refine ⟨⟨h.wide, hx, h.y_le, ?_, h.ending, h.start_le, h.end_le, h.start⟩, rfl⟩
  show pos = s.scrollOriginMem + s.curPosY.setWidth 32 * s.sizePerLine + x.setWidth 32 * 2
  rw [hpos, h.pos]
  ring

theorem Coherent.shows_lf (h : s.Coherent) : s.lf.Shows s.screen.lineFeed := by
  have hlines : DISPLAY_LINE_NR = 25 := rfl
  by_cases hy : s.curPosY.toNat + 1 < DISPLAY_LINE_NR
  · have hy' : s.curPosY.toNat + 1 ≤ DISPLAY_LINE_NR - 1 := by omega
    have hnext : (s.curPosY + 1).toNat = s.curPosY.toNat + 1 := by
      rw [BitVec.toNat_add]
      show (s.curPosY.toNat + 1) % 256 = _
      omega
    rw [lf, if_pos hy']
    refine ⟨⟨h.wide, h.x_le, ?_, ?_, h.ending, h.start_le, h.end_le, h.start⟩, ?_⟩
    · show (s.curPosY + 1).toNat ≤ _
      omega
    · show s.curPosMem + s.sizePerLine = s.scrollOriginMem + (s.curPosY + 1).setWidth 32 *
        s.sizePerLine + s.curPosX.setWidth 32 * 2
      have hone : (1 : BitVec 8).setWidth 32 = 1 := rfl
      rw [setWidth_add (by show s.curPosY.toNat + 1 < 256; omega), h.pos, hone]
      ring
    · rw [Screen.lineFeed, if_pos (show s.screen.y + 1 < DISPLAY_LINE_NR from hy)]
      show ({ s.screen with y := (s.curPosY + 1).toNat } : Screen) = _
      rw [hnext]
      rfl
  · have hy' : ¬ s.curPosY.toNat + 1 ≤ DISPLAY_LINE_NR - 1 := by omega
    rw [lf, if_neg hy', Screen.lineFeed, if_neg (show ¬ s.screen.y + 1 < DISPLAY_LINE_NR from hy)]
    exact h.shows_scrollUp

theorem Coherent.shows_ri (h : s.Coherent) : s.ri.Shows s.screen.reverseLineFeed := by
  by_cases hy : 0 < s.curPosY
  · have hone : 1 ≤ s.curPosY.toNat := BitVec.lt_def.mp hy
    have hprev : (s.curPosY - 1).toNat = s.curPosY.toNat - 1 := by
      rw [BitVec.toNat_sub]
      show (256 - 1 + s.curPosY.toNat) % 256 = _
      have hlt := s.curPosY.isLt
      omega
    rw [ri, if_pos hy]
    refine ⟨⟨h.wide, h.x_le, ?_, ?_, h.ending, h.start_le, h.end_le, h.start⟩, ?_⟩
    · show (s.curPosY - 1).toNat ≤ _
      have hle := h.y_le
      omega
    · show s.curPosMem - s.sizePerLine = s.scrollOriginMem + (s.curPosY - 1).setWidth 32 *
        s.sizePerLine + s.curPosX.setWidth 32 * 2
      have hword : (1 : BitVec 8).setWidth 32 = 1 := rfl
      rw [setWidth_sub (by exact hone), h.pos, hword]
      ring
    · rw [Screen.reverseLineFeed, if_pos (show 0 < s.screen.y from hone)]
      show ({ s.screen with y := (s.curPosY - 1).toNat } : Screen) = _
      rw [hprev]
      rfl
  · have hzero : ¬ 0 < s.curPosY.toNat := fun hpos => hy (BitVec.lt_def.mpr hpos)
    rw [ri, if_neg hy, Screen.reverseLineFeed, if_neg (show ¬ 0 < s.screen.y from hzero)]
    exact h.shows_scrollDown

theorem Coherent.shows_goto (h : s.Coherent) (x y : BitVec 8) :
    (s.curGotoPos x y).1.Shows (s.screen.goto x.toNat y.toNat) := by
  by_cases hout : s.displayCharPerLine < x ∨ DISPLAY_LINE_NR < y.toNat
  · have hout' : s.screen.cols < x.toNat ∨ DISPLAY_LINE_NR < y.toNat := hout
    rw [curGotoPos, if_pos hout, Screen.goto, if_pos hout']
    exact ⟨h, rfl⟩
  · have hout' : ¬ (s.screen.cols < x.toNat ∨ DISPLAY_LINE_NR < y.toNat) := hout
    obtain ⟨hx, hy⟩ := not_or.mp hout'
    rw [curGotoPos, if_neg hout, Screen.goto, if_neg hout']
    refine ⟨⟨h.wide, Nat.not_lt.mp hx, Nat.not_lt.mp hy, ?_, h.ending, h.start_le, h.end_le,
      h.start⟩, rfl⟩
    show s.scrollOriginMem + s.sizePerLine * y.setWidth 32 + x.setWidth 32 * 2 =
      s.scrollOriginMem + y.setWidth 32 * s.sizePerLine + x.setWidth 32 * 2
    rw [mul_comm s.sizePerLine]

theorem Coherent.withStore (h : s.Coherent) (store : Store) : { s with store := store }.Coherent :=
  ⟨h.wide, h.x_le, h.y_le, h.pos, h.ending, h.start_le, h.end_le, h.start⟩

theorem toNat_sub_one {x : BitVec 8} (hx : x ≠ 0) : (x - 1).toNat = x.toNat - 1 ∧ 1 ≤ x.toNat := by
  have hpos : x.toNat ≠ 0 := fun hzero => hx (BitVec.eq_of_toNat_eq hzero)
  have hlt := x.isLt
  refine ⟨?_, by omega⟩
  rw [BitVec.toNat_sub]
  show (256 - 1 + x.toNat) % 256 = _
  omega

/-- The cursor goes one to the left. -/
theorem Coherent.shows_left (h : s.Coherent) (hx : s.curPosX ≠ 0) :
    { s with curPosX := s.curPosX - 1, curPosMem := s.curPosMem - 2 }.Shows s.screen.left := by
  obtain ⟨hprev, hone⟩ := toNat_sub_one hx
  have hword : (1 : BitVec 8).setWidth 32 = 1 := rfl
  have hle := h.x_le
  have hshows := h.shows_withX (s.curPosX - 1) (s.curPosMem - 2) (by omega)
    (by rw [setWidth_sub (by exact hone), hword]; ring)
  rw [hprev] at hshows
  exact hshows

theorem Coherent.shows_backspace (h : s.Coherent) : s.backspace.Shows s.screen.left := by
  by_cases hx : s.curPosX = 0
  · rw [backspace, if_pos hx]
    refine ⟨h, ?_⟩
    have hzero : s.screen.x = 0 := congrArg BitVec.toNat hx
    show s.screen = { s.screen with x := s.screen.x - 1 }
    rw [hzero, Nat.zero_sub, ← hzero]
  · rw [backspace, if_neg hx]
    exact h.shows_left hx

theorem Coherent.shows_del (h : s.Coherent) : s.del.Shows s.screen.delete := by
  by_cases hx : s.curPosX = 0
  · rw [del, if_pos hx, Screen.delete, if_pos (show s.screen.x = 0 from congrArg BitVec.toNat hx)]
    exact ⟨h, rfl⟩
  · obtain ⟨hprev, hone⟩ := toNat_sub_one hx
    have hleft := h.shows_left hx
    have hle := h.x_le
    have hnz : ¬ s.screen.x = 0 := fun hzero => hx (BitVec.eq_of_toNat_eq hzero)
    rw [del, if_neg hx, Screen.delete, if_neg hnz]
    refine ⟨hleft.coherent.withStore _, (hleft.coherent.screen_put ?_ BLANK).trans ?_⟩
    · show (s.curPosX - 1).toNat < s.cols
      omega
    · rw [hleft.screen]
      show s.screen.left.put (s.curPosX - 1).toNat _ BLANK = _
      rw [hprev]
      rfl

/-- A cell is stored at the cursor, which moves on. -/
theorem Coherent.shows_print_here (h : s.Coherent) (hx : s.curPosX.toNat < s.cols)
    (v : BitVec 16) :
    { s with
      store := s.store.put s.curPosMem v
      curPosX := s.curPosX + 1
      curPosMem := s.curPosMem + 2 }.Shows
    { s.screen.put s.screen.x s.screen.y v with x := s.screen.x + 1 } := by
  have hline := h.cols_lt
  have hnext : (s.curPosX + 1).toNat = s.curPosX.toNat + 1 := by
    rw [BitVec.toNat_add]
    show (s.curPosX.toNat + 1) % 256 = _
    omega
  have hword : (1 : BitVec 8).setWidth 32 = 1 := rfl
  have hput := h.screen_put hx v
  have hshows := (h.withStore (s.store.put s.curPosMem v)).shows_withX (s.curPosX + 1)
    (s.curPosMem + 2) (by rw [hnext]; exact hx)
    (by rw [setWidth_add (by show s.curPosX.toNat + 1 < 256; omega), hword]; ring)
  rw [hput, hnext] at hshows
  exact hshows

/-- A cursor after the end of its line goes to the start. -/
theorem Coherent.shows_lineStart (h : s.Coherent) (hwrap : s.displayCharPerLine ≤ s.curPosX) :
    { s with
      curPosX := s.curPosX - s.displayCharPerLine
      curPosMem := s.curPosMem - s.sizePerLine }.Shows { s.screen with x := 0 } := by
  have hle : s.cols ≤ s.curPosX.toNat := hwrap
  have hfirst : (s.curPosX - s.displayCharPerLine).toNat = 0 := by
    have hsame : s.curPosX = s.displayCharPerLine :=
      BitVec.eq_of_toNat_eq (Nat.le_antisymm h.x_le hle)
    rw [hsame, BitVec.sub_self]
    rfl
  have hstart := h.shows_withX (s.curPosX - s.displayCharPerLine) (s.curPosMem - s.sizePerLine)
    (by omega) (by rw [setWidth_sub (by exact hle), sizePerLine]; ring)
  rw [hfirst] at hstart
  exact hstart

/-- A line that is full is left for the start of the next one. -/
theorem Coherent.shows_nextLine (h : s.Coherent) (hwrap : s.displayCharPerLine ≤ s.curPosX) :
    ∃ t, lf { s with
      curPosX := s.curPosX - s.displayCharPerLine
      curPosMem := s.curPosMem - s.sizePerLine } = t ∧
      t.Shows (Screen.lineFeed { s.screen with x := 0 }) ∧ t.curPosX.toNat < t.cols := by
  have hstart := h.shows_lineStart hwrap
  have hnext := hstart.coherent.shows_lf
  rw [hstart.screen] at hnext
  have hx := (congrArg Screen.x hnext.screen).trans (Screen.lineFeed_x _)
  refine ⟨_, rfl, hnext, ?_⟩
  exact Nat.lt_of_le_of_lt (Nat.le_of_eq hx)
    (Nat.lt_of_lt_of_le (show 0 < 8 by decide) hnext.coherent.wide)

theorem Coherent.shows_printChar (h : s.Coherent) (c : BitVec 8) :
    (s.printChar c).Shows (s.screen.print c) := by
  by_cases hwrap : s.displayCharPerLine ≤ s.curPosX
  · obtain ⟨t, ht, hshows, hx⟩ := h.shows_nextLine hwrap
    have hprint := hshows.coherent.shows_print_here hx (0x0700 + c.setWidth 16)
    rw [hshows.screen] at hprint
    rw [printChar, if_pos hwrap, ht, Screen.print,
      if_pos (show s.screen.cols ≤ s.screen.x from hwrap)]
    exact hprint
  · have hx : ¬ s.screen.cols ≤ s.screen.x := fun hle => hwrap hle
    rw [printChar, if_neg hwrap, Screen.print, if_neg hx]
    exact h.shows_print_here (Nat.not_le.mp hx) _

/-- The distance to the next tab stop. -/
theorem htOffset_toNat (x : BitVec 8) : (8 - (x &&& 7)).toNat = 8 - x.toNat % 8 := by
  have hmod : (x &&& 7).toNat = x.toNat % 8 := by
    rw [BitVec.toNat_and]
    exact Nat.and_two_pow_sub_one_eq_mod x.toNat 3
  rw [BitVec.toNat_sub, hmod]
  show (256 - x.toNat % 8 + 8) % 256 = _
  omega

/-- A tab past the end of the line, before it goes to the next one. -/
theorem Coherent.shows_tabWrap (h : s.Coherent) {ht : BitVec 8}
    (hht : ht.toNat = 8 - s.curPosX.toNat % 8) (hwrap : s.cols < s.curPosX.toNat + ht.toNat) :
    { s with
      curPosX := s.curPosX - (s.displayCharPerLine - ht)
      curPosMem := s.curPosMem - (s.displayCharPerLine.setWidth 32 - ht.setWidth 32) * 2 }.Shows
    { s.screen with x := s.curPosX.toNat + ht.toNat - s.cols } := by
  have hwide := h.wide
  have hx := h.x_le
  have hline := h.cols_lt
  have hback : (s.displayCharPerLine - ht).toNat = s.cols - ht.toNat := by
    rw [BitVec.toNat_sub]
    show (256 - ht.toNat + s.cols) % 256 = _
    omega
  have hnew : (s.curPosX - (s.displayCharPerLine - ht)).toNat =
      s.curPosX.toNat + ht.toNat - s.cols := by
    rw [BitVec.toNat_sub, hback]
    show (256 - (s.cols - ht.toNat) + s.curPosX.toNat) % 256 = _
    omega
  have hshows := h.shows_withX (s.curPosX - (s.displayCharPerLine - ht))
    (s.curPosMem - (s.displayCharPerLine.setWidth 32 - ht.setWidth 32) * 2) (by omega) (by
      rw [setWidth_sub (a := s.curPosX) (by omega),
        setWidth_sub (a := s.displayCharPerLine) (by show ht.toNat ≤ s.cols; omega)]
      ring)
  rw [hnew] at hshows
  exact hshows

theorem Coherent.shows_horizontalTab (h : s.Coherent) :
    s.horizontalTab.Shows s.screen.tab := by
  have hx := h.x_le
  have hline := h.cols_lt
  have hval := htOffset_toNat s.curPosX
  rw [horizontalTab, Screen.tab]
  by_cases hwrap : s.cols < s.curPosX.toNat + (8 - (s.curPosX &&& 7)).toNat
  · have hshows := h.shows_tabWrap hval hwrap
    have hlf := hshows.coherent.shows_lf
    rw [hshows.screen, hval] at hlf
    rw [if_pos (show s.displayCharPerLine.toNat < _ from hwrap)]
    rw [hval] at hwrap
    rw [if_pos (show s.screen.cols < s.screen.x + (8 - s.screen.x % 8) from hwrap)]
    exact hlf
  · have hnew : (s.curPosX + (8 - (s.curPosX &&& 7))).toNat =
        s.curPosX.toNat + (8 - (s.curPosX &&& 7)).toNat := by
      rw [BitVec.toNat_add]
      omega
    have hshows := h.shows_withX (s.curPosX + (8 - (s.curPosX &&& 7)))
      (s.curPosMem + (8 - (s.curPosX &&& 7)).setWidth 32 * 2) (by omega)
      (by rw [setWidth_add (by omega)]; ring)
    rw [hnew, hval] at hshows
    rw [if_neg (show ¬ s.displayCharPerLine.toNat < _ from hwrap)]
    rw [hval] at hwrap
    rw [if_neg (show ¬ s.screen.cols < s.screen.x + (8 - s.screen.x % 8) from hwrap)]
    exact hshows

/-! ### Bytes -/

theorem Coherent.shows_withState (h : s.Coherent) (state : ParseState) :
    { s with state := state }.Shows { s.screen with state := state } :=
  ⟨⟨h.wide, h.x_le, h.y_le, h.pos, h.ending, h.start_le, h.end_le, h.start⟩, rfl⟩

theorem Coherent.shows_normalByte (h : s.Coherent) (erase c : BitVec 8) :
    (s.normalByte erase c).Shows (s.screen.normalByte erase c) := by
  unfold normalByte Screen.normalByte
  split_ifs
  · exact h.shows_printChar c
  · exact h.shows_withState .esi
  · exact h.shows_lf
  · exact h.shows_cr
  · exact h.shows_del
  · exact h.shows_backspace
  · exact h.shows_horizontalTab
  · exact ⟨h, rfl⟩

theorem Coherent.shows_escapeByte (h : s.Coherent) (c : BitVec 8) :
    (s.escapeByte c).Shows (s.screen.escapeByte c) := by
  obtain ⟨hn, hscreen⟩ := h.shows_withState .normal
  have hnel : (s.curPosY + 1).toNat = s.curPosY.toNat + 1 := by
    have hy := h.y_le
    have hlines : DISPLAY_LINE_NR = 25 := rfl
    rw [BitVec.toNat_add]
    show (s.curPosY.toNat + 1) % 256 = _
    omega
  unfold escapeByte Screen.escapeByte
  simp only
  rw [← hscreen]
  split_ifs
  · exact hn.shows_withState .csi1
  · have hgoto := hn.shows_goto 0 (s.curPosY + 1)
    rw [hnel] at hgoto
    exact hgoto
  · exact hn.shows_lf
  · exact hn.shows_ri
  · exact ⟨⟨h.wide, h.x_le, h.y_le, h.pos, h.ending, h.start_le, h.end_le, h.start⟩, rfl⟩
  · exact hn.shows_goto _ _
  · exact ⟨hn, rfl⟩

theorem Coherent.forget (h : s.Coherent) : s.forget.Coherent := h.withStore _

/-- What a byte does to the memory and the registers, it does to the screen. -/
theorem Coherent.shows_writeByte (h : s.Coherent) (erase c : BitVec 8) :
    (s.writeByte erase c).Shows (s.screen.writeByte erase c) := by
  rw [Screen.writeByte]
  obtain ⟨hstate, hbyte⟩ | ⟨hstate, hbyte⟩ | ⟨hnormal, hesi, hbyte⟩ := s.writeByte_cases erase c <;>
    rw [hbyte]
  · rw [if_pos (show s.screen.state = .normal from hstate)]
    exact h.forget.shows_normalByte erase c
  · have hnormal : ¬ s.screen.state = .normal := fun hnormal => by
      cases hstate.symm.trans hnormal
    rw [if_neg hnormal, if_pos (show s.screen.state = .esi from hstate)]
    exact h.forget.shows_escapeByte c
  · rw [if_neg (show ¬ s.screen.state = .normal from hnormal),
      if_neg (show ¬ s.screen.state = .esi from hesi)]
    exact ⟨h.forget, rfl⟩

end

end Console

end Driver
end CherryOS
