import CherryOS.Driver.Cooking
import CherryOS.Lib.Run

/-!
# Runs of a terminal

Between two interrupts bytes are put in `read_q`, and an interrupt is a number of passes of the
loop of `copy_to_cooked`.  A run is any sequence of bytes and passes, so what holds after every
run holds between the passes of one call too.
-/

namespace CherryOS
namespace Driver

open Kernel Lib

inductive TtyEvent
  | key (b : BitVec 8)
  | pass

namespace Terminal

/-- A byte is put in `read_q`, or the loop of `copy_to_cooked` makes a pass. -/
inductive Next (s : Terminal) : TtyEvent → Terminal → Prop
  | key (b : BitVec 8) : Next s (.key b) (s.withReadQ (s.tty.readQ.put b))
  | pass : ¬ s.tty.readQ.EMPTY → ¬ s.tty.secondary.FULL → Next s .pass s.cookNext

variable {s s' : Terminal} {e : TtyEvent} {es : List TtyEvent}

theorem run_cookLoop (n : Nat) (s : Terminal) :
    ∃ k, Run Next s (List.replicate k .pass) (s.cookLoop n) := by
  induction n generalizing s with
  | zero => exact ⟨0, Run.nil⟩
  | succ n ih =>
    rw [cookLoop]
    by_cases hstop : s.tty.readQ.EMPTY ∨ s.tty.secondary.FULL
    · rw [if_pos hstop]
      exact ⟨0, Run.nil⟩
    · obtain ⟨hbyte, hroom⟩ := not_or.mp hstop
      obtain ⟨k, hrest⟩ := ih s.cookNext
      rw [if_neg hstop]
      exact ⟨k + 1, Run.cons (.pass hbyte hroom) hrest⟩

/-- A call of `do_tty_interrupt` is a number of passes. -/
theorem run_copyToCooked (s : Terminal) :
    ∃ k, Run Next s (List.replicate k .pass) s.copyToCooked := run_cookLoop _ s

/-- The byte that the next pass takes. -/
def nextByte (s : Terminal) : BitVec 8 := s.tty.readQ.buf s.tty.readQ.tail

theorem next_goes (h : s.Valid) (hs : s.Next e s') :
    s'.Valid ∧ s'.tty.termios = s.tty.termios ∧
      s'.cooked = match e with
        | .key _ => s.cooked
        | .pass => s.tty.termios.coded.step s.cooked s.nextByte := by
  cases hs with
  | key b => exact ⟨⟨h.readQ.put b, h.writeQ, h.secondary⟩, rfl, rfl⟩
  | pass _ hroom =>
    have hgoes := goes_cookNext h hroom rfl
    exact ⟨hgoes.valid, hgoes.termios, hgoes.cooked⟩

theorem run_valid (h : s.Valid) (hrun : Run Next s es s') :
    s'.Valid ∧ s'.tty.termios = s.tty.termios := by
  refine hrun.invariant (P := fun v => v.Valid ∧ v.tty.termios = s.tty.termios) ⟨h, rfl⟩ ?_
  rintro v e v' ⟨hv, ht⟩ hs
  obtain ⟨hv', ht', _⟩ := next_goes hv hs
  exact ⟨hv', ht'.trans ht⟩

end Terminal

end Driver
end CherryOS
