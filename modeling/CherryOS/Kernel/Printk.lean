import CherryOS.Driver.KernelWrite
import CherryOS.Kernel.Format

/-!
# Messages of the kernel

`printk` formats into a static buffer of 1024 bytes and has `kernel_tty_write` put the result on
the console.  `vsprintf` does not know how long the buffer is, so a text of 1024 bytes or more is
stored over whatever lies behind it; what becomes of the kernel then is not modelled.  A shorter
one is written, but when its output processing makes 1024 bytes or more of it, only those after
the last time round the ring are seen.
-/

namespace CherryOS
namespace Kernel

open Lib Driver

/-- What `printk` works on.  `interrupts` is the flag that `cli` and `sti` change. -/
structure Speaker where
  terminal : Terminal
  mem : Bytes32
  interrupts : Bool

structure Spoken where
  speaker : Speaker
  ret : Int32

/-- `static char buf[1024]` -/
def BUF_SIZE : Nat := 1024

/-- What ends a message: a fault in `vsprintf`, or that it has stored behind the end of `buf`. -/
inductive PrintkFault
  | format (f : FormatFault)
  | pastBuf
deriving DecidableEq, Repr

def printk (fmt : List (BitVec 8)) (args : List U32) (s : Speaker) :
    Except PrintkFault Spoken := do
  let r ← (vsprintf s.mem fmt args).mapError .format
  if BUF_SIZE < r.buf.length then .error .pastBuf
  else
    let (terminal, _) := s.terminal.kernelTtyWrite (fun i => r.buf.getD i 0) r.ret.toBitVec
    .ok ⟨⟨terminal, r.mem, true⟩, r.ret⟩

namespace Format

/-! ## What is seen of a message -/

/-- What the console takes of a message with this text. -/
def seen (t : Termios) (out : List (BitVec 8)) : List (BitVec 8) :=
  (t.postAll out).drop ((t.postAll out).length / 1024 * 1024)

/-- A message whose output has fewer than 1024 bytes is seen whole. -/
theorem seen_whole {t : Termios} {out : List (BitVec 8)} (h : (t.postAll out).length < 1024) :
    seen t out = t.postAll out := by
  rw [seen, Nat.div_eq_of_lt h, Nat.zero_mul, List.drop_zero]

/-- A console to write on: nothing is left in `write_q`. -/
structure Idle (s : Speaker) : Prop where
  valid : s.terminal.tty.writeQ.Valid
  empty : s.terminal.tty.writeQ.EMPTY

theorem text_getD (out rest : List (BitVec 8)) :
    Terminal.text (fun i => (out ++ rest).getD i 0) out.length = out := by
  apply List.ext_getElem
  · rw [Terminal.text_length]
  · intro i hi hi'
    simp [Terminal.text, List.getElem?_append_left hi', List.getElem?_eq_getElem hi']

theorem kernelTtyWrite_sent {s : Speaker} (h : Idle s) {out : List (BitVec 8)}
    (hout : out.length < BUF_SIZE) :
    s.terminal.sent (fun i => (out ++ [0]).getD i 0) (Int32.ofNat out.length).toBitVec =
      seen s.terminal.tty.termios out := by
  have hlt : out.length < 1024 := hout
  have hnr : (Int32.ofNat out.length).toBitVec = BitVec.ofNat 32 out.length := rfl
  have hnat : (BitVec.ofNat 32 out.length).toNat = out.length := by
    rw [BitVec.toNat_ofNat, Nat.mod_eq_of_lt (by omega)]
  have hsize : ¬ TTY_BUF_SIZE ≤ BitVec.ofNat 32 out.length := by
    rw [BitVec.le_def, hnat]
    exact Nat.not_le.mpr hlt
  rw [hnr, Terminal.sent, seen, if_neg hsize, Terminal.writeChars_eq, Terminal.putWrites_writeQ,
    hnat, text_getD, TtyQueue.pending_puts_empty h.valid h.empty]

theorem kernelTtyWrite_idle {s : Speaker} (h : Idle s) (buf : Nat → BitVec 8) (nr : U32) :
    (s.terminal.kernelTtyWrite buf nr).1.tty.writeQ.Valid ∧
      (s.terminal.kernelTtyWrite buf nr).1.tty.writeQ.EMPTY ∧
      (s.terminal.kernelTtyWrite buf nr).1.tty.termios = s.terminal.tty.termios := by
  refine ⟨?_, Terminal.kernelTtyWrite_empties h.valid h.empty buf nr, ?_⟩
  · rw [Terminal.kernelTtyWrite]
    split
    · exact h.valid
    · have hputs : (s.terminal.writeChars nr.toNat buf).tty.writeQ.Valid := by
        rw [Terminal.writeChars_eq, Terminal.putWrites_writeQ]
        exact TtyQueue.puts_valid h.valid _
      exact (Terminal.writeLoop_empties (s.terminal.writeChars nr.toNat buf).tty.toTtyStruct
        (s.terminal.writeChars nr.toNat buf).console hputs).1
  · rw [Terminal.kernelTtyWrite]
    split
    · rfl
    · show (s.terminal.writeChars nr.toNat buf).tty.termios = _
      rw [Terminal.writeChars_eq, Terminal.putWrites_termios]

/-! ## Calls one after another -/

structure Message where
  items : List Item
  args : List U32

/-- What the messages come to: the memory that `%n` writes, and what has been seen. -/
structure Journal where
  mem : Bytes32
  seen : List (BitVec 8)

/-- What a message is for, if its text fits in `buf` with its NUL. -/
inductive Says (t : Termios) (a : Journal) : Message → Journal → Prop
  | message {items : List Item} {args args' : List U32} {out : List (BitVec 8)} {mem' : Bytes32}
      (hitems : ∀ x ∈ items, x.Proper)
      (hrun : Run Puts ⟨args, [], a.mem⟩ items ⟨args', out, mem'⟩)
      (hout : out.length < BUF_SIZE) :
      Says t a ⟨items, args⟩ ⟨mem', a.seen ++ Format.seen t out⟩

/-- What `printk` does with it. -/
def Printks (s : Speaker) (m : Message) (s' : Speaker) : Prop :=
  ∃ r, printk (text m.items) m.args s = .ok r ∧ r.speaker = s'

/-- One call. -/
theorem printk_text {items : List Item} (hitems : ∀ x ∈ items, x.Proper) {s : Speaker}
    (hidle : Idle s) {args args' : List U32} {out : List (BitVec 8)} {mem' : Bytes32}
    (hrun : Run Puts ⟨args, [], s.mem⟩ items ⟨args', out, mem'⟩) (hout : out.length < BUF_SIZE) :
    ∃ r, printk (text items) args s = .ok r ∧ r.ret = Int32.ofNat out.length ∧
      r.speaker.interrupts = true ∧ r.speaker.mem = mem' ∧
      Idle r.speaker ∧ r.speaker.terminal.tty.termios = s.terminal.tty.termios ∧
      r.speaker.terminal.console = s.terminal.console.feed (s.terminal.tty.termios.cCc V_ERASE)
        (seen s.terminal.tty.termios out) := by
  obtain ⟨hvalid, hempty, htermios⟩ := kernelTtyWrite_idle hidle (fun i => (out ++ [0]).getD i 0)
    (Int32.ofNat out.length).toBitVec
  have hconsole := Terminal.kernelTtyWrite_console (fun i => (out ++ [0]).getD i 0)
    (Int32.ofNat out.length).toBitVec s.terminal
  have hprint : printk (text items) args s =
      .ok ⟨⟨(s.terminal.kernelTtyWrite (fun i => (out ++ [0]).getD i 0)
        (Int32.ofNat out.length).toBitVec).1, mem', true⟩, Int32.ofNat out.length⟩ := by
    have hfits : ¬ BUF_SIZE < (out ++ [0]).length := by
      rw [List.length_append, List.length_singleton]
      omega
    rw [printk, vsprintf, printLoop_text hitems hrun]
    exact if_neg hfits
  rw [kernelTtyWrite_sent hidle hout] at hconsole
  exact ⟨_, hprint, rfl, rfl, rfl, ⟨hvalid, hempty⟩, htermios, hconsole⟩

/-- A text that does not fit is stored over what lies behind the buffer. -/
theorem printk_pastBuf {items : List Item} (hitems : ∀ x ∈ items, x.Proper) {s : Speaker}
    {args args' : List U32} {out : List (BitVec 8)} {mem' : Bytes32}
    (hrun : Run Puts ⟨args, [], s.mem⟩ items ⟨args', out, mem'⟩) (hout : BUF_SIZE ≤ out.length) :
    printk (text items) args s = .error .pastBuf := by
  have hlong : BUF_SIZE < (out ++ [0]).length := by
    rw [List.length_append, List.length_singleton]
    omega
  rw [printk, vsprintf, printLoop_text hitems hrun]
  exact if_pos hlong

/-- A run of messages that fit in the buffer puts on the console what each of them shows, one
after the other, whatever their formats are. -/
theorem printk_run {ms : List Message} {mem : Bytes32} {a : Journal} {t : Termios}
    (h : Run (Says t) ⟨mem, []⟩ ms a) {s : Speaker} (hmem : s.mem = mem)
    (ht : s.terminal.tty.termios = t) (hidle : Idle s) :
    ∃ s', Run Printks s ms s' ∧ s'.mem = a.mem ∧
      s'.terminal.console = s.terminal.console.feed (t.cCc V_ERASE) a.seen ∧
      s'.terminal.tty.termios = t ∧ Idle s' := by
  induction h with
  | nil => exact ⟨s, Run.nil, hmem, rfl, ht, hidle⟩
  | snoc _ hl ih =>
    obtain ⟨u, hrun, humem, hconsole, hut, huidle⟩ := ih
    cases hl with
    | @message items args args' out mem' hitems hputs hout =>
      rw [← humem] at hputs
      obtain ⟨r, hr, _, _, hrmem, hridle, hrt, hrconsole⟩ :=
        printk_text hitems huidle hputs hout
      rw [hut] at hrconsole hrt
      refine ⟨r.speaker, hrun.snoc ⟨r, hr, rfl⟩, hrmem, ?_, hrt, hridle⟩
      rw [hrconsole, hconsole, Console.feed_append]

/-- The console of the kernel, before its first message. -/
def firstSpeaker : Speaker := ⟨Terminal.kernelTty, sampleMem, false⟩

/-- `hd\n` -/
theorem printk_run_newline : ∃ s', Run Printks firstSpeaker
    [⟨[.byte 0x68, .byte 0x64, .byte 0x0A], []⟩] s' ∧ s'.mem = sampleMem ∧
      s'.terminal.console = Terminal.kernelTty.console.feed (kernelTermios.cCc V_ERASE)
        [0x68, 0x64, 0x0D, 0x0A] ∧
      s'.terminal.tty.termios = kernelTermios ∧ Idle s' := by
  have hbyte : ∀ out c, Puts ⟨[], out, sampleMem⟩ (.byte c) ⟨[], out ++ [c], sampleMem⟩ :=
    fun _ c => .byte c
  have hrun : Run Puts ⟨[], [], sampleMem⟩ [.byte 0x68, .byte 0x64, .byte 0x0A]
      ⟨[], [0x68, 0x64, 0x0A], sampleMem⟩ :=
    ((Run.single (hbyte [] _)).snoc (hbyte [_] _)).snoc (hbyte [_, _] _)
  have hseen : seen kernelTermios [0x68, 0x64, 0x0A] = [0x68, 0x64, 0x0D, 0x0A] := by decide
  have hsays : Run (Says kernelTermios) ⟨sampleMem, []⟩
      [⟨[.byte 0x68, .byte 0x64, .byte 0x0A], []⟩]
      ⟨sampleMem, [] ++ seen kernelTermios [0x68, 0x64, 0x0A]⟩ :=
    Run.single (.message (by decide) hrun (by decide))
  rw [hseen] at hsays
  exact printk_run hsays (s := firstSpeaker) rfl rfl
    ⟨(Terminal.typed_valid kernelTermios [] []).writeQ, by decide⟩

end Format
end Kernel
end CherryOS
