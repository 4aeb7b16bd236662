import CherryOS.Driver.LineDiscipline

/-!
# Output of the kernel

`kernel_tty_write` puts its bytes in `write_q`, changed as `c_oflag` says, and has the console
take them.  It refuses 1024 bytes or more; but under `O_NLCR` a newline becomes two bytes, and
nothing looks whether they fit.  The output is complete exactly if the bytes that are put are
at most 1023.
-/

namespace CherryOS
namespace Driver

open Kernel

def O_LCUC : U32 := 0x002
def O_CRNL : U32 := 0x010
def O_NLRET : U32 := 0x040

/-- `toupper`: the letters whose class in `_ctype` is `_L` are `a` to `z`. -/
def toupper (c : BitVec 8) : BitVec 8 := if 0x61 ≤ c ∧ c ≤ 0x7A then c - 0x20 else c

namespace Terminal

/-- One pass of the loop of `kernel_tty_write`. -/
def writeChar (c : BitVec 8) (s : Terminal) : Terminal :=
  let flags := s.tty.termios.cOflag
  if flags &&& O_POST ≠ 0 then
    let c := if c = ASC_CR ∧ flags &&& O_CRNL ≠ 0 then ASC_NL
      else if c = ASC_NL ∧ flags &&& O_NLRET ≠ 0 then ASC_CR
      else c
    let s := if c = ASC_NL ∧ flags &&& O_NLCR ≠ 0 then s.putWrite ASC_CR else s
    let c := if flags &&& O_LCUC ≠ 0 then toupper c else c
    s.putWrite c
  else s.putWrite c

/-- The loop, which counts `nr` down and moves `p` on. -/
def writeChars : Nat → (Nat → BitVec 8) → Terminal → Terminal
  | 0, _, s => s
  | n + 1, p, s => writeChars n (fun i => p (i + 1)) (s.writeChar (p 0))

/-- `kernel_tty_write(buf, nr)`.  The loop leaves 0 in `nr`, which is what is returned. -/
def kernelTtyWrite (buf : Nat → BitVec 8) (nr : U32) (s : Terminal) : Terminal × U32 :=
  if TTY_BUF_SIZE ≤ nr then (s, 0)
  else ((s.writeChars nr.toNat buf).write, 0)

end Terminal

/-! ## Output processing -/

namespace Termios

variable (t : Termios)

/-- Output is processed at all, and the flag asks for a part of it. -/
def Processes (flag : U32) : Prop := t.cOflag &&& O_POST ≠ 0 ∧ t.cOflag &&& flag ≠ 0

instance (flag : U32) : Decidable (t.Processes flag) := inferInstanceAs (Decidable (_ ∧ _))

/-- A carriage return and a newline may take each other's place. -/
def newline (c : BitVec 8) : BitVec 8 :=
  if c = ASC_CR ∧ t.Processes O_CRNL then ASC_NL
  else if c = ASC_NL ∧ t.Processes O_NLRET then ASC_CR
  else c

/-- A carriage return comes before the character. -/
def Returns (c : BitVec 8) : Prop := t.newline c = ASC_NL ∧ t.Processes O_NLCR

instance (c : BitVec 8) : Decidable (t.Returns c) := inferInstanceAs (Decidable (_ ∧ _))

/-- The output for a character. -/
def post (c : BitVec 8) : List (BitVec 8) :=
  (if t.Returns c then [ASC_CR] else []) ++
    [if t.Processes O_LCUC then toupper (t.newline c) else t.newline c]

/-- The output for a text. -/
def postAll (text : List (BitVec 8)) : List (BitVec 8) := text.flatMap t.post

variable {t}

theorem post_length (c : BitVec 8) : (t.post c).length = 1 + if t.Returns c then 1 else 0 := by
  rw [post, List.length_append, List.length_singleton, Nat.add_comm]
  split <;> rfl

/-- A byte for each character, and one more for each that a carriage return is put before. -/
theorem postAll_length (text : List (BitVec 8)) :
    (t.postAll text).length = text.length + text.countP fun c => t.Returns c := by
  induction text with
  | nil => rfl
  | cons c text ih =>
    rw [postAll, List.flatMap_cons, List.length_append, post_length, List.countP_cons,
      List.length_cons]
    have hrest : (text.flatMap t.post).length = _ := ih
    rw [hrest]
    simp only [decide_eq_true_eq]
    omega

/-- Without `O_POST` nothing is changed. -/
theorem postAll_raw (h : ¬ t.cOflag &&& O_POST ≠ 0) (text : List (BitVec 8)) :
    t.postAll text = text := by
  have hno : ∀ flag, ¬ t.Processes flag := fun _ hc => h hc.1
  have hpost : ∀ c, t.post c = [c] := by
    intro c
    have hnewline : t.newline c = c := by
      rw [newline, if_neg fun hc => hno _ hc.2, if_neg fun hc => hno _ hc.2]
    rw [post, if_neg fun hc => hno _ hc.2, if_neg (hno _), hnewline]
    rfl
  rw [postAll, List.flatMap_congr fun c _ => hpost c]
  exact List.flatMap_singleton' text

end Termios

/-! ## The loop -/

namespace Terminal

theorem putWrites_writeQ (s : Terminal) (bytes : List (BitVec 8)) :
    (s.putWrites bytes).tty.writeQ = s.tty.writeQ.puts bytes := by
  induction bytes generalizing s with
  | nil => rfl
  | cons c bytes ih => exact ih (s.putWrite c)

theorem putWrites_termios (s : Terminal) (bytes : List (BitVec 8)) :
    (s.putWrites bytes).tty.termios = s.tty.termios := by
  induction bytes generalizing s with
  | nil => rfl
  | cons c bytes ih => exact ih (s.putWrite c)

theorem putWrites_console (s : Terminal) (bytes : List (BitVec 8)) :
    (s.putWrites bytes).console = s.console := by
  induction bytes generalizing s with
  | nil => rfl
  | cons c bytes ih => exact ih (s.putWrite c)

theorem putWrites_append (s : Terminal) (p q : List (BitVec 8)) :
    s.putWrites (p ++ q) = (s.putWrites p).putWrites q := List.foldl_append

/-- One pass puts the output for its character. -/
theorem writeChar_eq (c : BitVec 8) (s : Terminal) :
    s.writeChar c = s.putWrites (s.tty.termios.post c) := by
  by_cases hpost : s.tty.termios.cOflag &&& O_POST ≠ 0
  · have hflag : ∀ flag, s.tty.termios.Processes flag ↔ s.tty.termios.cOflag &&& flag ≠ 0 :=
      fun _ => and_iff_right hpost
    have hnewline : (if c = ASC_CR ∧ s.tty.termios.cOflag &&& O_CRNL ≠ 0 then ASC_NL
        else if c = ASC_NL ∧ s.tty.termios.cOflag &&& O_NLRET ≠ 0 then ASC_CR else c) =
        s.tty.termios.newline c := by
      simp only [Termios.newline, hflag]
    rw [writeChar, Termios.post, putWrites_append]
    simp only [if_pos hpost, hnewline, Termios.Returns, hflag]
    by_cases hreturns : s.tty.termios.newline c = ASC_NL ∧ s.tty.termios.cOflag &&& O_NLCR ≠ 0
    · rw [if_pos hreturns, if_pos hreturns]
      rfl
    · rw [if_neg hreturns, if_neg hreturns]
      rfl
  · have hraw := Termios.postAll_raw hpost [c]
    rw [Termios.postAll, List.flatMap_singleton] at hraw
    rw [writeChar, hraw]
    simp only [if_neg hpost]
    rfl

/-- The characters at `p`. -/
def text (p : Nat → BitVec 8) (n : Nat) : List (BitVec 8) := (List.range n).map p

theorem text_succ (p : Nat → BitVec 8) (n : Nat) :
    text p (n + 1) = p 0 :: text (fun i => p (i + 1)) n := by
  rw [text, List.range_succ_eq_map, List.map_cons, List.map_map]
  rfl

theorem text_length (p : Nat → BitVec 8) (n : Nat) : (text p n).length = n := by
  rw [text, List.length_map, List.length_range]

theorem writeChars_eq (n : Nat) (p : Nat → BitVec 8) (s : Terminal) :
    s.writeChars n p = s.putWrites (s.tty.termios.postAll (text p n)) := by
  induction n generalizing p s with
  | zero => rfl
  | succ n ih =>
    rw [writeChars, ih, writeChar_eq, putWrites_termios, text_succ, Termios.postAll,
      Termios.postAll, List.flatMap_cons, putWrites_append]

/-! ## The call -/

/-- The bytes that the console takes in the call. -/
def sent (buf : Nat → BitVec 8) (nr : U32) (s : Terminal) : List (BitVec 8) :=
  if TTY_BUF_SIZE ≤ nr then [] else (s.writeChars nr.toNat buf).tty.writeQ.pending

theorem kernelTtyWrite_console (buf : Nat → BitVec 8) (nr : U32) (s : Terminal) :
    (s.kernelTtyWrite buf nr).1.console =
      s.console.feed (s.tty.termios.cCc V_ERASE) (s.sent buf nr) := by
  rw [kernelTtyWrite, sent]
  by_cases h : TTY_BUF_SIZE ≤ nr
  · rw [if_pos h, if_pos h]
    rfl
  · rw [if_neg h, if_neg h]
    have hwrite := Console.consoleWrite_eq (s.writeChars nr.toNat buf).tty.toTtyStruct
      (s.writeChars nr.toNat buf).console
    have hconsole : (s.writeChars nr.toNat buf).console = s.console := by
      rw [writeChars_eq, putWrites_console]
    have htermios : (s.writeChars nr.toNat buf).tty.termios = s.tty.termios := by
      rw [writeChars_eq, putWrites_termios]
    rw [hconsole] at hwrite
    rw [← htermios]
    refine Eq.trans ?_ hwrite
    show ((s.writeChars nr.toNat buf).console.consoleWrite _).2.1 = _
    rw [hconsole]

theorem kernelTtyWrite_empties {s : Terminal} (h : s.tty.writeQ.Valid) (hempty : s.tty.writeQ.EMPTY)
    (buf : Nat → BitVec 8) (nr : U32) : (s.kernelTtyWrite buf nr).1.tty.writeQ.EMPTY := by
  rw [kernelTtyWrite]
  by_cases hnr : TTY_BUF_SIZE ≤ nr
  · rw [if_pos hnr]
    exact hempty
  · have hvalid : (s.writeChars nr.toNat buf).tty.writeQ.Valid := by
      rw [writeChars_eq, putWrites_writeQ]
      exact TtyQueue.puts_valid h _
    obtain ⟨hwritten, hnil⟩ := writeLoop_empties (s.writeChars nr.toNat buf).tty.toTtyStruct
      (s.writeChars nr.toNat buf).console hvalid
    rw [if_neg hnr]
    exact (TtyQueue.empty_iff hwritten).mpr hnil

/-- The console takes exactly the output for the text, and nothing is left in `write_q`. -/
structure Complete (s : Terminal) (buf : Nat → BitVec 8) (nr : U32) : Prop where
  sent : s.sent buf nr = s.tty.termios.postAll (text buf nr.toNat)
  empty : (s.kernelTtyWrite buf nr).1.tty.writeQ.EMPTY

/-- For fewer than 1024 characters the output is complete if and only if there are fewer than
1024 with the carriage returns that are put in. -/
theorem kernelTtyWrite_complete_iff {s : Terminal} (h : s.tty.writeQ.Valid)
    (hempty : s.tty.writeQ.EMPTY) (buf : Nat → BitVec 8) {nr : U32} (hnr : nr < TTY_BUF_SIZE) :
    s.Complete buf nr ↔
      nr.toNat + (text buf nr.toNat).countP (fun c => s.tty.termios.Returns c) < 1024 := by
  have hsent : s.sent buf nr = (s.tty.writeQ.puts
      (s.tty.termios.postAll (text buf nr.toNat))).pending := by
    rw [sent, if_neg (BitVec.not_le.mpr hnr), writeChars_eq, putWrites_writeQ]
  have hlength := Termios.postAll_length (t := s.tty.termios) (text buf nr.toNat)
  rw [text_length] at hlength
  rw [← hlength]
  constructor
  · intro hc
    have hle := TtyQueue.pending_length_le
      (TtyQueue.puts_valid h (s.tty.termios.postAll (text buf nr.toNat)))
    rw [← hsent, hc.sent] at hle
    omega
  · intro hlt
    have hnil := (TtyQueue.empty_iff h).mp hempty
    have hputs : (s.tty.writeQ.puts (s.tty.termios.postAll (text buf nr.toNat))).pending =
        s.tty.writeQ.pending ++ s.tty.termios.postAll (text buf nr.toNat) := by
      refine TtyQueue.pending_puts h ?_
      rw [hnil, List.length_nil]
      omega
    rw [hnil, List.nil_append] at hputs
    exact ⟨hsent.trans hputs, kernelTtyWrite_empties h hempty buf nr⟩

/-- The terminal of the kernel before it writes for the first time. -/
def kernelTty : Terminal := typed kernelTermios [] []

theorem kernelTtyWrite_complete_iff_hello :
    kernelTty.Complete (fun i => [0x68, 0x69, 0x0A].getD i 0) 3 ↔
      (3 : U32).toNat + (text (fun i => [0x68, 0x69, 0x0A].getD i 0) (3 : U32).toNat).countP
        (fun c => kernelTty.tty.termios.Returns c) < 1024 :=
  kernelTtyWrite_complete_iff (typed_valid kernelTermios [] []).writeQ (by decide) _ (by decide)

/-- Of 512 newlines nothing is seen: their 1024 bytes fill the ring once round. -/
theorem kernelTtyWrite_incomplete :
    ¬ ∀ (s : Terminal) (buf : Nat → BitVec 8) (nr : U32), s.tty.writeQ.Valid →
      s.tty.writeQ.EMPTY → nr < TTY_BUF_SIZE → s.Complete buf nr := by
  intro h
  have hvalid : kernelTty.tty.writeQ.Valid := (typed_valid kernelTermios [] []).writeQ
  have hc := h kernelTty (fun _ => ASC_NL) 512 hvalid (by decide) (by decide)
  have hle := TtyQueue.pending_length_le (TtyQueue.puts_valid hvalid
    (kernelTermios.postAll (text (fun _ => ASC_NL) 512)))
  have hsent : kernelTty.sent (fun _ => ASC_NL) 512 = (kernelTty.tty.writeQ.puts
      (kernelTermios.postAll (text (fun _ => ASC_NL) 512))).pending := by
    rw [sent, if_neg (by decide), writeChars_eq, putWrites_writeQ]
    rfl
  have hall : ∀ c ∈ text (fun _ => ASC_NL) 512, decide (kernelTermios.Returns c) = true := by
    intro c hc
    obtain ⟨_, _, rfl⟩ := List.mem_map.mp hc
    decide
  have hlength := Termios.postAll_length (t := kernelTermios) (text (fun _ => ASC_NL) 512)
  rw [List.countP_eq_length.mpr hall, text_length] at hlength
  have hwhole : kernelTty.sent (fun _ => ASC_NL) 512 =
      kernelTermios.postAll (text (fun _ => ASC_NL) 512) := hc.sent
  rw [hwhole] at hsent
  rw [← hsent] at hle
  omega

end Terminal

end Driver
end CherryOS
