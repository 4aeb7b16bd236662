import CherryOS.Driver.LineDiscipline
import CherryOS.Driver.TtyRuns

/-!
# Counting lines

`secondary.data` counts the characters in `secondary` that end a line.  It is increased where
such a character is queued and nowhere decreased; but erasing stops at a character that ends a
line, so none that was counted is ever taken back.
-/

namespace CherryOS
namespace Driver

open Kernel Lib

namespace Discipline

variable {d : Discipline}

theorem countP_kill (line : List (BitVec 8)) :
    (d.kill line).countP d.ends = line.countP d.ends := by
  induction line using List.reverseRecOn with
  | nil => rfl
  | append_singleton line c ih =>
    rw [kill_append]
    cases hc : d.ends c with
    | true => rfl
    | false =>
      rw [if_neg (by decide), ih, List.countP_append, List.countP_singleton, hc]
      rfl

theorem countP_erase (line : List (BitVec 8)) :
    (d.erase line).countP d.ends = line.countP d.ends := by
  obtain rfl | ⟨line, c, rfl⟩ := List.eq_nil_or_concat' line
  · rfl
  · rw [erase_append]
    cases hc : d.ends c with
    | true => rfl
    | false =>
      rw [if_neg (by decide), List.countP_append, List.countP_singleton, hc]
      rfl

end Discipline

namespace Terminal

variable {s s' : Terminal} {e : TtyEvent} {es : List TtyEvent}

/-! ## The counter -/

theorem putWrites_data (s : Terminal) (bytes : List (BitVec 8)) :
    (s.putWrites bytes).tty.data = s.tty.data := by
  induction bytes generalizing s with
  | nil => rfl
  | cons c bytes ih => exact ih (s.putWrite c)

theorem takeBack_data (h : s.takeBack = some s') : s'.tty.data = s.tty.data := by
  have hecho : ∀ (c : BitVec 8) (s : Terminal), (s.echoErase c).tty.data = s.tty.data := by
    intro c s
    rw [echoErase]
    split
    · exact putWrites_data s _
    · rfl
  rw [takeBack] at h
  split_ifs at h
  cases h
  exact hecho _ _

theorem erase_data (s : Terminal) : s.erase.tty.data = s.tty.data := by
  rw [erase]
  cases h : s.takeBack with
  | none => rfl
  | some s' => exact takeBack_data h

theorem killLoop_data (n : Nat) (s : Terminal) : (s.killLoop n).tty.data = s.tty.data := by
  induction n generalizing s with
  | zero => rfl
  | succ n ih =>
    rw [killLoop]
    cases h : s.takeBack with
    | none => rfl
    | some s' => exact (ih s').trans (takeBack_data h)

theorem queueChar_data (c : BitVec 8) (s : Terminal) :
    (s.queueChar c).tty.data =
      if s.tty.termios.coded.ends c then s.tty.data + 1 else s.tty.data := by
  have hcount : (s.queueChar c).tty.data = (s.countLine c).tty.data := putWrites_data _ _
  rw [hcount, countLine, if_congr Termios.coded_ends rfl rfl]
  split <;> rfl

/-- The characters in `secondary` that end a line. -/
def lines (s : Terminal) : Nat :=
  s.tty.secondary.pending.countP fun c => c = ASC_NL ∨ s.tty.termios.isCc V_EOF c

def Counted (s : Terminal) : Prop := s.tty.data = BitVec.ofNat 32 s.lines

theorem lines_eq (s : Terminal) : s.lines = s.cooked.line.countP s.tty.termios.coded.ends := by
  refine List.countP_congr fun c _ => ?_
  rw [decide_eq_true_iff, ← Termios.coded_ends]

theorem Counted.of_same (h : s.Counted) (hdata : s'.tty.data = s.tty.data)
    (hlines : s'.lines = s.lines) : s'.Counted := by
  rw [Counted, hdata, hlines]
  exact h

theorem counted_cookChar (h : s.Valid) (hroom : ¬ s.tty.secondary.FULL) (hc : s.Counted)
    (c : BitVec 8) : (s.cookChar c).Counted := by
  have hgoes := goes_cookChar h hroom c
  have hlines : (s.cookChar c).lines =
      (s.tty.termios.coded.cook s.cooked c).line.countP s.tty.termios.coded.ends := by
    rw [lines_eq, hgoes.cooked, hgoes.termios]
  have hqueue : ∀ v : Terminal, v = s.queueChar c →
      v.lines = (s.cooked.line ++ [c]).countP s.tty.termios.coded.ends → v.Counted := by
    rintro v rfl hl
    rw [Counted, queueChar_data, hl, List.countP_append, List.countP_singleton, BitVec.ofNat_add,
      ← lines_eq, ← hc]
    split
    · rfl
    · exact (BitVec.add_zero _).symm
  revert hlines
  simp only [cookChar, Discipline.cook, Termios.coded, decide_eq_true_eq]
  split_ifs <;> intro hlines
  · exact hc.of_same (killLoop_data _ s) (by rw [hlines, lines_eq]; exact Discipline.countP_kill _)
  · exact hc.of_same (erase_data s) (by rw [hlines, lines_eq]; exact Discipline.countP_erase _)
  · exact hc.of_same rfl rfl
  · exact hc.of_same rfl rfl
  · exact hqueue _ rfl hlines
  · exact hqueue _ rfl hlines

theorem counted_next (h : s.Valid) (hc : s.Counted) (hs : s.Next e s') : s'.Counted := by
  cases hs with
  | key b => exact hc
  | pass _ hroom =>
    have hvalid : (s.withReadQ s.tty.readQ.incTail).Valid :=
      ⟨h.readQ.incTail, h.writeQ, h.secondary⟩
    rw [cookNext]
    split
    · exact hc
    · exact counted_cookChar hvalid hroom hc _

/-! ## Writes to `secondary` -/

theorem putWrites_secondary (s : Terminal) (bytes : List (BitVec 8)) :
    (s.putWrites bytes).tty.secondary = s.tty.secondary := by
  induction bytes generalizing s with
  | nil => rfl
  | cons c bytes ih => exact ih (s.putWrite c)

theorem echoErase_secondary (c : BitVec 8) (s : Terminal) :
    (s.echoErase c).tty.secondary = s.tty.secondary := by
  rw [echoErase]
  split
  · exact putWrites_secondary s _
  · rfl

/-- Taking a character back moves the head and writes nothing. -/
theorem takeBack_buf (h : s.takeBack = some s') : s'.tty.secondary.buf = s.tty.secondary.buf := by
  rw [takeBack] at h
  split_ifs at h
  cases h
  rw [echoErase_secondary]
  rfl

theorem erase_buf (s : Terminal) : s.erase.tty.secondary.buf = s.tty.secondary.buf := by
  rw [erase]
  cases h : s.takeBack with
  | none => rfl
  | some s' => exact takeBack_buf h

theorem killLoop_buf (n : Nat) (s : Terminal) :
    (s.killLoop n).tty.secondary.buf = s.tty.secondary.buf := by
  induction n generalizing s with
  | zero => rfl
  | succ n ih =>
    rw [killLoop]
    cases h : s.takeBack with
    | none => rfl
    | some s' => exact (ih s').trans (takeBack_buf h)

theorem queueChar_secondary (c : BitVec 8) (s : Terminal) :
    (s.queueChar c).tty.secondary = s.tty.secondary.put c := by
  have hcount : (s.countLine c).tty.secondary = s.tty.secondary := by
    rw [countLine]
    split <;> rfl
  have hecho : ((s.countLine c).putWrites ((s.countLine c).tty.termios.echo c)).tty.secondary =
      s.tty.secondary := (putWrites_secondary _ _).trans hcount
  exact congrArg (TtyQueue.put c) hecho

/-- A pass writes to `secondary` when it queues a character, and then once. -/
theorem cookNext_secondary (s : Terminal) :
    s.cookNext.tty.secondary.buf = s.tty.secondary.buf ∨
      ∃ c, s.cookNext.tty.secondary = s.tty.secondary.put c := by
  rw [cookNext]
  split
  · exact Or.inl rfl
  · rename_i c _
    rw [cookChar]
    dsimp only
    split_ifs
    · exact Or.inl (killLoop_buf _ _)
    · exact Or.inl (erase_buf _)
    · exact Or.inl rfl
    · exact Or.inl rfl
    · exact Or.inr ⟨c, queueChar_secondary c _⟩
    · exact Or.inr ⟨c, queueChar_secondary c _⟩

/-! ## The loops end -/

theorem cookLoop_of_done (h : s.tty.readQ.EMPTY ∨ s.tty.secondary.FULL) (n : Nat) :
    s.cookLoop n = s := by
  cases n with
  | zero => rfl
  | succ n => rw [cookLoop, if_pos h]

theorem cookLoop_add (m n : Nat) (s : Terminal) :
    s.cookLoop (m + n) = (s.cookLoop m).cookLoop n := by
  induction m generalizing s with
  | zero => rw [Nat.zero_add, cookLoop]
  | succ m ih =>
    rw [Nat.succ_add, cookLoop, cookLoop]
    by_cases hstop : s.tty.readQ.EMPTY ∨ s.tty.secondary.FULL
    · rw [if_pos hstop, if_pos hstop, cookLoop_of_done hstop]
    · rw [if_neg hstop, if_neg hstop, ih]

/-- The loop of `copy_to_cooked` ends by itself: more passes allowed make no more. -/
theorem cookLoop_stable (h : s.Valid) {n : Nat} (hn : s.tty.readQ.READ_SPACE.toNat ≤ n) :
    s.cookLoop n = s.copyToCooked := by
  obtain ⟨k, rfl⟩ := Nat.exists_eq_add_of_le hn
  rw [cookLoop_add]
  exact cookLoop_of_done (copyToCooked_done h) k

theorem killLoop_of_done (h : s.takeBack = none) (n : Nat) : s.killLoop n = s := by
  cases n with
  | zero => rfl
  | succ n => rw [killLoop, h]

theorem killLoop_add (m n : Nat) (s : Terminal) :
    s.killLoop (m + n) = (s.killLoop m).killLoop n := by
  induction m generalizing s with
  | zero => rw [Nat.zero_add, killLoop]
  | succ m ih =>
    rw [Nat.succ_add, killLoop, killLoop]
    cases h : s.takeBack with
    | none => exact (killLoop_of_done h n).symm
    | some s' => exact ih s'

theorem kill_done (h : s.Valid) : s.kill.takeBack = none := by
  have hgoes := goes_kill h
  obtain ⟨hnone, _⟩ | ⟨s', line, c, _, hline, hends, _⟩ := takeBack_cases hgoes.valid
  · exact hnone
  · -- what is left after the loop ends in a character that ends a line
    rw [hgoes.cooked] at hline
    have hkill : s.tty.termios.coded.kill s.cooked.line = line ++ [c] := hline
    have hagain : s.tty.termios.coded.kill (line ++ [c]) = line ++ [c] := by
      rw [← hkill, Discipline.kill, Discipline.kill, List.rdropWhile_idempotent]
    rw [hgoes.termios] at hends
    rw [Discipline.kill_append, if_neg hends] at hagain
    have hprefix := List.rdropWhile_prefix (fun c => !s.tty.termios.coded.ends c) (l := line)
    have hle := hprefix.length_le
    rw [← Discipline.kill, hagain, List.length_append, List.length_singleton] at hle
    omega

/-- The loop under `V_KILL` ends by itself. -/
theorem killLoop_stable (h : s.Valid) {n : Nat} (hn : s.tty.secondary.READ_SPACE.toNat ≤ n) :
    s.killLoop n = s.kill := by
  obtain ⟨k, rfl⟩ := Nat.exists_eq_add_of_le hn
  rw [killLoop_add]
  exact killLoop_of_done (kill_done h) k

/-! ## Every run -/

/-- The counter is right, and the queue it belongs to is used within its bounds by loops that
end. -/
structure CountsLines (s : Terminal) : Prop where
  count : s.Counted
  bound : s.tty.secondary.pending.length ≤ 1023
  writes : ∀ s', s.Next .pass s' → s'.tty.secondary.buf = s.tty.secondary.buf ∨
    (¬ s.tty.secondary.FULL ∧ ∃ c, s'.tty.secondary = s.tty.secondary.put c)
  done : s.copyToCooked.tty.readQ.EMPTY ∨ s.copyToCooked.tty.secondary.FULL
  passes : ∀ n, s.tty.readQ.READ_SPACE.toNat ≤ n → s.cookLoop n = s.copyToCooked
  kills : ∀ q : TtyQueue, q.Valid → ∀ n, s.tty.secondary.READ_SPACE.toNat ≤ n →
    (s.withReadQ q).killLoop n = (s.withReadQ q).kill

/-- Whatever is typed, and however often it is interrupted, the terminal counts its lines. -/
theorem countsLines_run {s₀ : Terminal} (h : s₀.Valid) (hc : s₀.Counted)
    (hrun : Run Next s₀ es s) : s.tty.termios = s₀.tty.termios ∧ s.CountsLines := by
  obtain ⟨hvalid, htermios⟩ := run_valid h hrun
  have hboth : s.Valid ∧ s.Counted := by
    refine hrun.invariant (P := fun v => v.Valid ∧ v.Counted) ⟨h, hc⟩ ?_
    rintro v e v' ⟨hv, hcv⟩ hs
    exact ⟨(next_goes hv hs).1, counted_next hv hcv hs⟩
  refine ⟨htermios, hboth.2, TtyQueue.pending_length_le hvalid.secondary, ?_,
    copyToCooked_done hvalid, fun n hn => cookLoop_stable hvalid hn, fun q hq n hn => ?_⟩
  · rintro s' (_ | ⟨_, hroom⟩)
    exact (cookNext_secondary s).imp_right fun hput => ⟨hroom, hput⟩
  · have hwith : (s.withReadQ q).Valid := ⟨hq, hvalid.writeQ, hvalid.secondary⟩
    exact killLoop_stable hwith hn

/-- Ctrl-A and a newline, typed at the terminal as it is after the start. -/
theorem countsLines_run_typed :
    ∃ s, Run Next (typed kernelTermios [] []) [.key 1, .key ASC_NL, .pass, .pass] s ∧
      s.tty.termios = kernelTermios ∧ s.CountsLines := by
  have hvalid := typed_valid kernelTermios [] []
  have hcounted : (typed kernelTermios [] []).Counted := by
    rw [Counted]
    decide
  have hrun : ∃ s, Run Next (typed kernelTermios [] []) [.key 1, .key ASC_NL, .pass, .pass] s :=
    ⟨_, Run.cons (.key 1) (Run.cons (.key ASC_NL) (Run.cons (.pass (by decide) (by decide))
      (Run.single (.pass (by decide) (by decide)))))⟩
  obtain ⟨s, hrun⟩ := hrun
  exact ⟨s, hrun, countsLines_run hvalid hcounted hrun⟩

end Terminal

end Driver
end CherryOS
