import CherryOS.Driver.Scrolling

/-!
# The bounds of the screen

`cur_goto_pos` lets the cursor go to line 25, one below the last, and `ESC E` on the last line
sends it there.  Nothing else does: without that step the cursor and all cells that are stored
stay on the screen.
-/

namespace CherryOS
namespace Driver

open Lib Kernel

namespace Screen

/-- `ESC E` on the last line -/
def NextLineAtBottom (s : Screen) (c : BitVec 8) : Prop :=
  s.state = .esi ∧ c = 0x45 ∧ s.y = DISPLAY_LINE_NR - 1

/-- The cursor and its saved copy are on lines of the screen. -/
def Above (s : Screen) : Prop := s.y < DISPLAY_LINE_NR ∧ s.savedY < DISPLAY_LINE_NR

variable {s : Screen}

theorem lineFeed_y_lt (h : s.y < DISPLAY_LINE_NR) : s.lineFeed.y < DISPLAY_LINE_NR := by
  rw [lineFeed]
  split
  · rename_i hy
    exact hy
  · exact h

theorem Above.lineFeed (h : s.Above) : s.lineFeed.Above := by
  refine ⟨lineFeed_y_lt h.1, ?_⟩
  rw [Screen.lineFeed]
  split
  · exact h.2
  · exact h.2

theorem Above.reverseLineFeed (h : s.Above) : s.reverseLineFeed.Above := by
  rw [Screen.reverseLineFeed]
  split
  · exact ⟨Nat.lt_of_le_of_lt (Nat.sub_le _ _) h.1, h.2⟩
  · exact h

theorem Above.goto (h : s.Above) (x : Nat) {y : Nat} (hy : y < DISPLAY_LINE_NR) :
    (s.goto x y).Above := by
  rw [Screen.goto]
  split
  · exact h
  · exact ⟨hy, h.2⟩

theorem Above.print (h : s.Above) (c : BitVec 8) : (s.print c).Above := by
  rw [Screen.print]
  split
  · exact Above.lineFeed (s := { s with x := 0 }) h
  · exact h

theorem Above.tab (h : s.Above) : s.tab.Above := by
  rw [Screen.tab]
  split
  · exact Above.lineFeed (s := { s with x := _ }) h
  · exact h

theorem Above.delete (h : s.Above) : s.delete.Above := by
  rw [Screen.delete]
  split
  · exact h
  · exact h

theorem Above.writeByte (h : s.Above) (erase : BitVec 8) {c : BitVec 8}
    (hc : ¬ s.NextLineAtBottom c) : (s.writeByte erase c).Above := by
  rw [Screen.writeByte]
  split_ifs with hnormal hesi
  · unfold normalByte
    split_ifs
    · exact h.print c
    · exact h
    · exact h.lineFeed
    · exact h
    · exact h.delete
    · exact h
    · exact h.tab
    · exact h
  · have hn : Above { s with state := .normal } := h
    unfold escapeByte
    simp only
    split_ifs with h1 h2
    · exact h
    · have hy : s.y ≠ DISPLAY_LINE_NR - 1 := fun hy => hc ⟨hesi, h2, hy⟩
      have hlt := h.1
      exact hn.goto 0 (by show s.y + 1 < _; omega)
    · exact hn.lineFeed
    · exact hn.reverseLineFeed
    · exact ⟨h.1, h.1⟩
    · exact hn.goto _ h.2
    · exact h
  · exact h

/-- The step that leaves the screen. -/
theorem writeByte_of_bottom (erase : BitVec 8) {c : BitVec 8} (hc : s.NextLineAtBottom c) :
    (s.writeByte erase c).y = DISPLAY_LINE_NR := by
  obtain ⟨hesi, rfl, hy⟩ := hc
  have hnormal : ¬ s.state = .normal := by
    rw [hesi]
    decide
  rw [Screen.writeByte, if_neg hnormal, if_pos hesi]
  show (Screen.goto { s with state := .normal } 0 (s.y + 1)).y = _
  rw [hy, Screen.goto, if_neg (by simp [DISPLAY_LINE_NR])]
  rfl

end Screen

namespace Console

/-! ## What is stored -/

section
variable {s : Console}

/-- The cells that were stored lie on the screen. -/
def StoredWithin (s : Console) : Prop :=
  s.store.Within s.scrollOriginMem (2 * (s.cols * DISPLAY_LINE_NR))

theorem within_of_nil {store : Store} (h : store.stored = []) (base : U32) (n : Nat) :
    store.Within base n := by
  intro a ha
  rw [h] at ha
  cases ha

theorem Coherent.scrollUp_within (h : s.Coherent) (hnil : s.store.stored = []) :
    s.scrollUp.StoredWithin := by
  have hrows : s.cols * DISPLAY_LINE_NR = s.cols * (DISPLAY_LINE_NR - 1) + s.cols := Nat.mul_succ _ _
  by_cases hfull : VIDEO_MEM_END_ADDR < s.scrollEndMem + s.sizePerLine
  · rw [StoredWithin, Console.scrollUp, if_pos hfull]
    have hcopied := (within_of_nil hnil VIDEO_MEM_START_ADDR (2 * (s.cols * DISPLAY_LINE_NR))).copyUp
      (base_zero _) (n := s.cols * (DISPLAY_LINE_NR - 1)) (by omega)
      (s.scrollOriginMem + s.sizePerLine)
    exact hcopied.fill s.lastRow_eq (by show _ + 2 * s.cols ≤ _; omega) BLANK
  · rw [StoredWithin, Console.scrollUp, if_neg hfull]
    have hend : s.scrollEndMem = s.scrollOriginMem + s.sizePerLine +
        BitVec.ofNat 32 (2 * (s.cols * (DISPLAY_LINE_NR - 1))) := by
      rw [h.ending_eq, hrows, sizePerLine_eq, Store.add_ofNat_add]
      congr 2
      omega
    exact (within_of_nil hnil _ _).fill hend
      (by show _ + 2 * s.cols ≤ 2 * (s.cols * DISPLAY_LINE_NR); omega) BLANK

theorem scrollDown_within (hnil : s.store.stored = []) : s.scrollDown.StoredWithin := by
  have hrows : s.cols * DISPLAY_LINE_NR = s.cols * (DISPLAY_LINE_NR - 1) + s.cols := Nat.mul_succ _ _
  have hcopied := (within_of_nil hnil s.scrollOriginMem (2 * (s.cols * DISPLAY_LINE_NR))).copyDown
    (t := 2 * s.cols) (n := s.cols * (DISPLAY_LINE_NR - 1)) rfl (by omega) s.scrollOriginMem
  have hone : s.cols ≤ s.cols * DISPLAY_LINE_NR := Nat.le_mul_of_pos_right _ (by decide)
  exact hcopied.fill (base_zero _) (by show 0 + 2 * s.cols ≤ _; omega) BLANK

theorem Coherent.lf_within (h : s.Coherent) (hnil : s.store.stored = []) : s.lf.StoredWithin := by
  rw [lf]
  split
  · exact within_of_nil hnil _ _
  · exact h.scrollUp_within hnil

theorem ri_within (hnil : s.store.stored = []) : s.ri.StoredWithin := by
  rw [ri]
  split
  · exact within_of_nil hnil _ _
  · exact scrollDown_within hnil

/-- A cell stored at a cursor that is on the screen. -/
theorem Coherent.put_within (h : s.Coherent) (hx : s.curPosX.toNat < s.cols)
    (hy : s.curPosY.toNat < DISPLAY_LINE_NR) (hw : s.StoredWithin) (v : BitVec 16) :
    (s.store.put s.curPosMem v).Within s.scrollOriginMem (2 * (s.cols * DISPLAY_LINE_NR)) := by
  have hcell := cell_lt hy hx
  rw [h.pos, s.cellAddr_eq]
  exact Store.Within.put hw (by omega) v

theorem Coherent.del_within (h : s.Coherent) (hy : s.curPosY.toNat < DISPLAY_LINE_NR)
    (hnil : s.store.stored = []) : s.del.StoredWithin := by
  by_cases hx : s.curPosX = 0
  · rw [del, if_pos hx]
    exact within_of_nil hnil _ _
  · obtain ⟨hprev, hone⟩ := toNat_sub_one hx
    have hle := h.x_le
    have hleft := (h.shows_left hx).coherent
    rw [del, if_neg hx]
    exact hleft.put_within (by show (s.curPosX - 1).toNat < s.cols; omega) hy
      (within_of_nil hnil _ _) BLANK

theorem Coherent.printChar_within (h : s.Coherent) (hy : s.curPosY.toNat < DISPLAY_LINE_NR)
    (hnil : s.store.stored = []) (c : BitVec 8) : (s.printChar c).StoredWithin := by
  by_cases hwrap : s.displayCharPerLine ≤ s.curPosX
  · obtain ⟨t, ht, hshows, hx⟩ := h.shows_nextLine hwrap
    have hw := (h.shows_lineStart hwrap).coherent.lf_within hnil
    have hty : t.curPosY.toNat < DISPLAY_LINE_NR := by
      have hline := Screen.lineFeed_y_lt (s := { s.screen with x := 0 }) hy
      rwa [← hshows.screen] at hline
    rw [ht] at hw
    rw [printChar, if_pos hwrap, ht]
    exact hshows.coherent.put_within hx hty hw _
  · rw [printChar, if_neg hwrap]
    exact h.put_within (Nat.not_le.mp hwrap) hy (within_of_nil hnil _ _) _

theorem Coherent.horizontalTab_within (h : s.Coherent) (hnil : s.store.stored = []) :
    s.horizontalTab.StoredWithin := by
  rw [horizontalTab]
  by_cases hwrap : s.cols < s.curPosX.toNat + (8 - (s.curPosX &&& 7)).toNat
  · rw [if_pos (show s.displayCharPerLine.toNat < _ from hwrap)]
    exact (h.shows_tabWrap (htOffset_toNat s.curPosX) hwrap).coherent.lf_within hnil
  · rw [if_neg (show ¬ s.displayCharPerLine.toNat < _ from hwrap)]
    exact within_of_nil hnil _ _

theorem Coherent.normalByte_within (h : s.Coherent) (hy : s.curPosY.toNat < DISPLAY_LINE_NR)
    (hnil : s.store.stored = []) (erase c : BitVec 8) : (s.normalByte erase c).StoredWithin := by
  unfold normalByte
  split_ifs
  · exact h.printChar_within hy hnil c
  · exact within_of_nil hnil _ _
  · exact h.lf_within hnil
  · exact within_of_nil hnil _ _
  · exact h.del_within hy hnil
  · rw [backspace]
    split
    · exact within_of_nil hnil _ _
    · exact within_of_nil hnil _ _
  · exact h.horizontalTab_within hnil
  · exact within_of_nil hnil _ _

theorem curGotoPos_within (hnil : s.store.stored = []) (x y : BitVec 8) :
    (s.curGotoPos x y).1.StoredWithin := by
  rw [curGotoPos]
  split
  · exact within_of_nil hnil _ _
  · exact within_of_nil hnil _ _

theorem Coherent.escapeByte_within (h : s.Coherent) (hnil : s.store.stored = []) (c : BitVec 8) :
    (s.escapeByte c).StoredWithin := by
  have hn := (h.shows_withState .normal).coherent
  unfold escapeByte
  simp only
  split_ifs
  · exact within_of_nil hnil _ _
  · exact curGotoPos_within (s := { s with state := .normal }) hnil _ _
  · exact hn.lf_within hnil
  · exact ri_within hnil
  · exact within_of_nil hnil _ _
  · exact curGotoPos_within (s := { s with state := .normal }) hnil _ _
  · exact within_of_nil hnil _ _

theorem Coherent.writeByte_within (h : s.Coherent) (hy : s.curPosY.toNat < DISPLAY_LINE_NR)
    (erase c : BitVec 8) : (s.writeByte erase c).StoredWithin := by
  obtain ⟨-, hbyte⟩ | ⟨-, hbyte⟩ | ⟨-, -, hbyte⟩ := s.writeByte_cases erase c <;> rw [hbyte]
  · exact h.forget.normalByte_within hy rfl erase c
  · exact h.forget.escapeByte_within rfl c
  · exact within_of_nil rfl _ _

end

/-! ## Runs -/

/-- The cursor and its saved copy on the screen, and so the cells last stored. -/
structure OnScreen (s : Console) : Prop where
  coherent : s.Coherent
  above : s.screen.Above
  stored : s.StoredWithin

/-- `ESC E` on the last line -/
def NextLineAtBottom (s : Console) (c : BitVec 8) : Prop :=
  s.state = .esi ∧ c = 0x45 ∧ s.curPosY.toNat = DISPLAY_LINE_NR - 1

theorem OnScreen.writeByte {s : Console} (h : s.OnScreen) (erase : BitVec 8) {c : BitVec 8}
    (hc : ¬ s.NextLineAtBottom c) : (s.writeByte erase c).OnScreen := by
  obtain ⟨hcoherent, hscreen⟩ := h.coherent.shows_writeByte erase c
  refine ⟨hcoherent, ?_, h.coherent.writeByte_within h.above.1 erase c⟩
  rw [hscreen]
  exact h.above.writeByte erase hc

/-- The bounds of the cursor, the screen and the cells stored for the last byte. -/
structure InBounds (s : Console) : Prop where
  x_le : s.curPosX ≤ s.displayCharPerLine
  y_le : s.curPosY.toNat ≤ DISPLAY_LINE_NR - 1
  pos : s.curPosMem =
    s.scrollOriginMem + s.curPosY.setWidth 32 * s.sizePerLine + s.curPosX.setWidth 32 * 2
  ending : s.scrollEndMem = s.scrollOriginMem + s.sizePerLine * BitVec.ofNat 32 DISPLAY_LINE_NR
  start_le : VIDEO_MEM_START_ADDR ≤ s.scrollOriginMem
  end_le : s.scrollEndMem ≤ VIDEO_MEM_END_ADDR
  stored : ∀ a ∈ s.store.stored, s.scrollOriginMem ≤ a ∧ a.toNat + 2 ≤ s.scrollEndMem.toNat

theorem OnScreen.inBounds {s : Console} (h : s.OnScreen) : s.InBounds := by
  have hend := h.coherent.ending_toNat
  have hsize := h.coherent.size_le
  have hvideo := h.coherent.end_le
  refine ⟨h.coherent.x_le, Nat.le_pred_of_lt h.above.1, h.coherent.pos, h.coherent.ending,
    h.coherent.start_le, ?_, fun a ha => ?_⟩
  · rw [BitVec.le_def, hend]
    exact hvideo
  · obtain ⟨k, hk, rfl⟩ := h.stored a ha
    have hlast : VIDEO_MEM_END_ADDR.toNat = 0xBC000 := rfl
    rw [BitVec.le_def, BitVec.toNat_add, BitVec.toNat_ofNat, hend]
    omega

/-- A run that never leaves the screen. -/
theorem OnScreen.feed {s : Console} (h : s.OnScreen) (erase : BitVec 8) {bytes : List (BitVec 8)}
    (hno : ∀ p c, p ++ [c] <+: bytes → ¬ (s.feed erase p).NextLineAtBottom c)
    (p : List (BitVec 8)) (hp : p <+: bytes) : (s.feed erase p).OnScreen := by
  induction p using List.reverseRecOn with
  | nil => exact h
  | append_singleton p c ih =>
    rw [feed_append]
    exact (ih ((List.prefix_append p [c]).trans hp)).writeByte erase (hno p c hp)

/-! ### The start -/

/-- The variables before `console_init`. -/
def static (mem : Bytes32) : Console :=
  { displayCharPerLine := 0, state := .normal, scrollOriginMem := 0, scrollEndMem := 0,
    curPosMem := 0, curPosX := 0, curPosY := 0, savedCurPosX := 0, savedCurPosY := 0,
    store := { mem := mem, stored := [] }, startHigh := 0, startLow := 0 }

/-- The place of `brief_info`, four cells before the end of the first line. -/
theorem corner_eq {cols : BitVec 8} (hwide : 8 ≤ cols.toNat) :
    VIDEO_MEM_START_ADDR + cols.setWidth 32 * 2 - 4 * 2 =
      VIDEO_MEM_START_ADDR + BitVec.ofNat 32 (2 * (cols.toNat - 4)) := by
  have hlt := cols.isLt
  refine BitVec.eq_of_toNat_eq ?_
  have hsum : (VIDEO_MEM_START_ADDR + cols.setWidth 32 * 2).toNat = 0xB8000 + 2 * cols.toNat := by
    rw [BitVec.toNat_add, BitVec.toNat_mul, BitVec.toNat_setWidth]
    show (0xB8000 + cols.toNat % 2 ^ 32 * 2 % 2 ^ 32) % 2 ^ 32 = _
    omega
  rw [BitVec.toNat_sub, hsum, BitVec.toNat_add, BitVec.toNat_ofNat]
  show (2 ^ 32 - 8 + (0xB8000 + 2 * cols.toNat)) % 2 ^ 32 =
    (0xB8000 + 2 * (cols.toNat - 4) % 2 ^ 32) % 2 ^ 32
  omega

theorem brief_within {cols : BitVec 8} (hwide : 8 ≤ cols.toNat) (brief : List (BitVec 8 × Nat))
    (hbrief : ∀ c ∈ brief, c.2 < 4) {store : Store}
    (h : store.Within VIDEO_MEM_START_ADDR (2 * (cols.toNat * DISPLAY_LINE_NR))) :
    (brief.foldl (fun store c => store.putLow (VIDEO_MEM_START_ADDR + cols.setWidth 32 * 2 - 4 * 2 +
      BitVec.ofNat 32 (2 * c.2)) c.1) store).Within VIDEO_MEM_START_ADDR
        (2 * (cols.toNat * DISPLAY_LINE_NR)) := by
  induction brief generalizing store with
  | nil => exact h
  | cons c brief ih =>
    have hc := hbrief c List.mem_cons_self
    have hlines : DISPLAY_LINE_NR = 25 := rfl
    have hplace : VIDEO_MEM_START_ADDR + cols.setWidth 32 * 2 - 4 * 2 + BitVec.ofNat 32 (2 * c.2) =
        VIDEO_MEM_START_ADDR + BitVec.ofNat 32 (2 * (cols.toNat - 4) + 2 * c.2) := by
      rw [corner_eq hwide, Store.add_ofNat_add]
    refine ih (fun c hmem => hbrief c (List.mem_cons_of_mem _ hmem)) ?_
    show (store.putLow _ c.1).Within _ _
    rw [hplace]
    exact h.putLow (by rw [hlines]; omega) _

/-- The console starts on its screen, if the BIOS left the cursor there. -/
theorem onScreen_consoleInit {bios : Bios} (hwide : 8 ≤ bios.chrCntPerLine.toNat)
    (hx : bios.curPosX ≤ bios.chrCntPerLine) (hy : bios.curPosY.toNat < DISPLAY_LINE_NR)
    (mem : Bytes32) : ((static mem).consoleInit bios).OnScreen := by
  have hlt := bios.chrCntPerLine.isLt
  have hlines : DISPLAY_LINE_NR = 25 := rfl
  obtain ⟨s, hs⟩ : ∃ s : Console, s = { static mem with
    displayCharPerLine := bios.chrCntPerLine
    store := briefInfo.zipIdx.foldl (fun store c => store.putLow (VIDEO_MEM_START_ADDR +
      bios.chrCntPerLine.setWidth 32 * 2 - 4 * 2 + BitVec.ofNat 32 (2 * c.2)) c.1) (static mem).store
    scrollOriginMem := VIDEO_MEM_START_ADDR
    scrollEndMem := VIDEO_MEM_START_ADDR + bios.chrCntPerLine.setWidth 32 * 2 *
      BitVec.ofNat 32 DISPLAY_LINE_NR } := ⟨_, rfl⟩
  have hinit : (static mem).consoleInit bios = (s.curGotoPos bios.curPosX bios.curPosY).1 := by
    rw [hs]
    rfl
  have hin : ¬ (s.displayCharPerLine < bios.curPosX ∨ DISPLAY_LINE_NR < bios.curPosY.toNat) := by
    rw [hs]
    exact not_or.mpr ⟨BitVec.not_lt.mpr hx, Nat.not_lt.mpr (Nat.le_of_lt hy)⟩
  have hbrief : s.store.Within VIDEO_MEM_START_ADDR
      (2 * (bios.chrCntPerLine.toNat * DISPLAY_LINE_NR)) := by
    rw [hs]
    exact brief_within hwide _ (by decide) (within_of_nil rfl _ _)
  rw [hinit, curGotoPos, if_neg hin]
  rw [hs] at hbrief ⊢
  refine ⟨⟨hwide, hx, Nat.le_of_lt hy, ?_, rfl, le_refl _, ?_, startAddr_of_zero rfl rfl⟩,
    ⟨hy, show 0 < DISPLAY_LINE_NR by decide⟩,
    hbrief⟩
  · show VIDEO_MEM_START_ADDR + bios.chrCntPerLine.setWidth 32 * 2 * bios.curPosY.setWidth 32 +
        bios.curPosX.setWidth 32 * 2 = VIDEO_MEM_START_ADDR +
        bios.curPosY.setWidth 32 * (bios.chrCntPerLine.setWidth 32 * 2) +
        bios.curPosX.setWidth 32 * 2
    rw [mul_comm (bios.curPosY.setWidth 32)]
  · show 0xB8000 + 2 * (bios.chrCntPerLine.toNat * 25) ≤ 0xBC000
    omega

/-! ### The bounds in every state -/

/-- The console stays in its bounds exactly as long as no `ESC E` comes on the last line. -/
theorem inBounds_iff (bios : Bios) (mem : Bytes32) (erase : BitVec 8) (bytes : List (BitVec 8))
    (hwide : 8 ≤ bios.chrCntPerLine.toNat) (hx : bios.curPosX ≤ bios.chrCntPerLine)
    (hy : bios.curPosY.toNat < DISPLAY_LINE_NR) :
    (∀ p s, p <+: bytes → Written erase ((static mem).consoleInit bios) p s → s.InBounds) ↔
      ∀ p c s, p ++ [c] <+: bytes → Written erase ((static mem).consoleInit bios) p s →
        ¬ s.NextLineAtBottom c := by
  have hstart := onScreen_consoleInit hwide hx hy mem
  constructor
  · intro hall p c s hp hs hbottom
    have hcoherent : s.Coherent := by
      rw [hs.eq_feed]
      exact (hstart.coherent.shows_feed erase p).coherent
    have hnext := hall (p ++ [c]) (s.writeByte erase c) hp (by
      have hfeed := written_feed erase ((static mem).consoleInit bios) (p ++ [c])
      rwa [feed_append, ← hs.eq_feed] at hfeed)
    have hline : (s.writeByte erase c).screen.y = DISPLAY_LINE_NR := by
      rw [(hcoherent.shows_writeByte erase c).screen]
      exact Screen.writeByte_of_bottom erase hbottom
    have hle : (s.writeByte erase c).screen.y ≤ DISPLAY_LINE_NR - 1 := hnext.y_le
    rw [hline] at hle
    exact absurd hle (by decide)
  · intro hno p s hp hs
    rw [hs.eq_feed]
    exact (hstart.feed erase (fun p c hpc => hno p c _ hpc (written_feed erase _ p)) p hp).inBounds

/-- A BIOS that leaves the cursor on the last line of 80 columns. -/
def lastLine : Bios := { curPosX := 0, curPosY := 24, chrCntPerLine := 80 }

theorem inBounds_iff_newline :
    ∃ s, Written 0x7F ((static fun _ => 0).consoleInit lastLine) [0x0A, 0x41] s ∧ s.InBounds := by
  refine ⟨_, written_feed 0x7F _ _, (inBounds_iff lastLine (fun _ => 0) 0x7F [0x0A, 0x41] (by decide)
    (by decide) (by decide)).mpr ?_ _ _ (List.prefix_refl _) (written_feed 0x7F _ _)⟩
  rintro p c s hp - ⟨-, rfl, -⟩
  have hmem : (0x45 : BitVec 8) ∈ ([0x0A, 0x41] : List (BitVec 8)) := hp.subset (by simp)
  exact absurd hmem (by decide)

/-- After `ESC E` on the last line the next character is stored after the end of the screen. -/
theorem next_line_leaves_screen :
    ∃ s, Written 0x7F ((static fun _ => 0).consoleInit lastLine) [0x1B, 0x45, 0x41] s ∧
      s.curPosY = 25 ∧ s.store.stored = [s.scrollEndMem] ∧ ¬ s.InBounds := by
  have hy : (((static fun _ => 0).consoleInit lastLine).feed 0x7F [0x1B, 0x45, 0x41]).curPosY = 25 := by
    decide +kernel
  refine ⟨_, written_feed 0x7F _ _, hy, by decide +kernel, fun h => ?_⟩
  have hle := h.y_le
  rw [hy] at hle
  exact absurd hle (by decide)

end Console

end Driver
end CherryOS
