import CherryOS.Driver.Discipline

/-!
# Cooking

`copy_to_cooked` takes a prefix of `read_q`, edits `secondary` by the discipline `coded`, and
puts in `write_q` what `echoes` says.  `shown` is the console once it has taken all that
waits in `write_q`: calls of `console_write` do not change it.
-/

namespace CherryOS
namespace Driver

open Kernel

namespace Terminal

structure Valid (s : Terminal) : Prop where
  readQ : s.tty.readQ.Valid
  writeQ : s.tty.writeQ.Valid
  secondary : s.tty.secondary.Valid

def cooked (s : Terminal) : Cooked := { line := s.tty.secondary.pending, stopped := s.tty.stopped }

def shown (s : Terminal) : Console :=
  s.console.feed (s.tty.termios.cCc V_ERASE) s.tty.writeQ.pending

/-- From `s` to `s'` nothing is taken from `read_q`, `secondary` and `stopped` become `k`, and
`out` is put in `write_q`. -/
structure Goes (s s' : Terminal) (k : Cooked) (out : List (BitVec 8)) : Prop where
  valid : s'.Valid
  termios : s'.tty.termios = s.tty.termios
  readQ : s'.tty.readQ = s.tty.readQ
  cooked : s'.cooked = k
  overrun : s'.overrun = false → s.overrun = false
  shown : s'.overrun = false → s'.shown = s.shown.feed (s.tty.termios.cCc V_ERASE) out

variable {s s' s'' : Terminal} {k k' : Cooked} {out out' : List (BitVec 8)}

namespace Goes

theorem refl (h : s.Valid) : s.Goes s s.cooked [] := ⟨h, rfl, rfl, rfl, id, fun _ => rfl⟩

theorem trans (h : s.Goes s' k out) (h' : s'.Goes s'' k' out') : s.Goes s'' k' (out ++ out') := by
  refine ⟨h'.valid, h'.termios.trans h.termios, h'.readQ.trans h.readQ, h'.cooked,
    fun hover => h.overrun (h'.overrun hover), fun hover => ?_⟩
  rw [Console.feed_append, ← h.shown (h'.overrun hover), ← h.termios]
  exact h'.shown hover

end Goes

/-! ## Writing -/

theorem goes_putWrite (h : s.Valid) (c : BitVec 8) : s.Goes (s.putWrite c) s.cooked [c] := by
  refine ⟨⟨h.readQ, h.writeQ.put c, h.secondary⟩, rfl, rfl, rfl, fun hover => ?_, fun hover => ?_⟩
  · exact (Bool.or_eq_false_iff.mp hover).1
  · have hroom := of_decide_eq_false (Bool.or_eq_false_iff.mp hover).2
    have hput := TtyQueue.pending_put h.writeQ hroom c
    show s.console.feed _ (s.tty.writeQ.put c).pending = _
    rw [hput, Console.feed_append]
    rfl

theorem goes_putWrites (h : s.Valid) (bytes : List (BitVec 8)) :
    s.Goes (s.putWrites bytes) s.cooked bytes := by
  induction bytes generalizing s with
  | nil => exact Goes.refl h
  | cons c bytes ih =>
    have hput := goes_putWrite h c
    exact hput.trans (ih hput.valid)

theorem writeLoop_empties (tty : TtyStruct) (s : Console) (h : tty.writeQ.Valid) :
    (Console.writeLoop tty.writeQ.READ_SPACE.toNat tty s).1.writeQ.Valid ∧
      (Console.writeLoop tty.writeQ.READ_SPACE.toNat tty s).1.writeQ.pending = [] := by
  rw [Console.writeLoop_queue]
  exact TtyQueue.iterate_incTail h rfl

theorem goes_write (h : s.Valid) : s.Goes s.write s.cooked [] := by
  obtain ⟨hvalid, hnil⟩ := writeLoop_empties s.tty.toTtyStruct s.console h.writeQ
  refine ⟨⟨h.readQ, hvalid, h.secondary⟩, rfl, rfl, rfl, id, fun _ => ?_⟩
  have hconsole : s.write.console = s.shown := Console.consoleWrite_eq s.tty.toTtyStruct s.console
  have hpending : s.write.tty.writeQ.pending = [] := hnil
  rw [shown, hpending, hconsole]
  rfl

/-! ## Taking back -/

theorem goes_echoErase (h : s.Valid) (c : BitVec 8) :
    s.Goes (s.echoErase c) s.cooked (s.tty.termios.rubOut c) := by
  rw [echoErase, Termios.rubOut]
  by_cases hecho : s.tty.termios.cLflag &&& L_ECHO ≠ 0
  · rw [if_pos hecho, if_pos hecho]
    have hput := goes_putWrites h (if c.toInt < 0x20 then [ASC_DEL, ASC_DEL] else [ASC_DEL])
    have hwrite := hput.trans (goes_write hput.valid)
    rwa [hput.cooked, List.append_nil] at hwrite
  · rw [if_neg hecho, if_neg hecho]
    exact Goes.refl h

theorem Valid.withSecondary (h : s.Valid) {q : TtyQueue} (hq : q.Valid) :
    (s.withSecondary q).Valid :=
  ⟨h.readQ, h.writeQ, hq⟩

/-- The last character is one of the unfinished line and leaves it, or there is none. -/
theorem takeBack_cases (h : s.Valid) :
    (s.takeBack = none ∧ s.tty.termios.coded.Ended s.cooked.line) ∨
    ∃ s' line c, s.takeBack = some s' ∧ s.cooked.line = line ++ [c] ∧
      ¬ s.tty.termios.coded.ends c ∧
      s.Goes s' { s.cooked with line := line } (s.tty.termios.rubOut c) := by
  rw [takeBack]
  by_cases hempty : s.tty.secondary.EMPTY
  · refine Or.inl ⟨if_pos hempty, fun line c hline => ?_⟩
    have hnil := (TtyQueue.empty_iff h.secondary).mp hempty
    exact absurd (hnil.symm.trans hline)
      (List.append_ne_nil_of_right_ne_nil _ (List.cons_ne_nil _ _)).symm
  · have hlast := TtyQueue.pending_decHead h.secondary hempty
    by_cases hends : s.tty.termios.coded.ends s.tty.secondary.LAST
    · refine Or.inl ⟨?_, fun line c hline => ?_⟩
      · rw [if_neg hempty, if_pos (Termios.coded_ends.mp hends)]
      · have hsame := (List.append_inj' (hlast.symm.trans hline) rfl).2
        rwa [← List.singleton_inj.mp hsame]
    · have hecho := goes_echoErase (h.withSecondary h.secondary.decHead) s.tty.secondary.LAST
      refine Or.inr ⟨_, s.tty.secondary.decHead.pending, s.tty.secondary.LAST, ?_, hlast, hends,
        hecho.valid, hecho.termios, hecho.readQ, hecho.cooked, hecho.overrun, hecho.shown⟩
      rw [if_neg hempty, if_neg fun hor => hends (Termios.coded_ends.mpr hor)]

theorem goes_erase (h : s.Valid) :
    s.Goes s.erase { s.cooked with line := s.tty.termios.coded.erase s.cooked.line }
      (s.tty.termios.eraseEcho s.cooked.line) := by
  rw [erase]
  obtain ⟨hnone, hended⟩ | ⟨s', line, c, hsome, hline, hends, hgoes⟩ := takeBack_cases h
  · rw [hnone, Discipline.erase_of_ended hended, Termios.eraseEcho_of_ended hended]
    exact Goes.refl h
  · rw [hsome, hline, Discipline.erase_append, Termios.eraseEcho_append, if_neg hends,
      if_neg hends]
    exact hgoes

/-- The loop ends at the end of a line or with an empty queue, not for want of rounds. -/
theorem goes_killLoop (h : s.Valid) (n : Nat) (hn : s.cooked.line.length ≤ n) :
    s.Goes (s.killLoop n) { s.cooked with line := s.tty.termios.coded.kill s.cooked.line }
      (s.tty.termios.killEcho s.cooked.line) := by
  induction n generalizing s with
  | zero =>
    have hnil := List.length_eq_zero_iff.mp (Nat.le_zero.mp hn)
    have hrefl := Goes.refl h
    rw [hnil]
    rw [cooked, show s.tty.secondary.pending = [] from hnil] at hrefl
    exact hrefl
  | succ n ih =>
    rw [killLoop]
    obtain ⟨hnone, hended⟩ | ⟨s', line, c, hsome, hline, hends, hgoes⟩ := takeBack_cases h
    · rw [hnone, Discipline.kill_of_ended hended, Termios.killEcho_of_ended hended]
      exact Goes.refl h
    · rw [hline, List.length_append, List.length_singleton] at hn
      have hrest := ih hgoes.valid (by rw [hgoes.cooked]; exact Nat.le_of_succ_le_succ hn)
      rw [hgoes.cooked, hgoes.termios] at hrest
      rw [hsome, hline, Discipline.kill_append, Termios.killEcho_append, if_neg hends,
        if_neg hends]
      exact hgoes.trans hrest

theorem goes_kill (h : s.Valid) :
    s.Goes s.kill { s.cooked with line := s.tty.termios.coded.kill s.cooked.line }
      (s.tty.termios.killEcho s.cooked.line) :=
  goes_killLoop h _ (TtyQueue.pending_length h.secondary).le

/-! ## A character -/

theorem goes_countLine (h : s.Valid) (c : BitVec 8) : s.Goes (s.countLine c) s.cooked [] := by
  rw [countLine]
  split_ifs
  · exact ⟨⟨h.readQ, h.writeQ, h.secondary⟩, rfl, rfl, rfl, id, fun _ => rfl⟩
  · exact Goes.refl h

theorem goes_queueChar (h : s.Valid) (hroom : ¬ s.tty.secondary.FULL) (c : BitVec 8) :
    s.Goes (s.queueChar c) { s.cooked with line := s.cooked.line ++ [c] }
      (s.tty.termios.echo c) := by
  have hcount := goes_countLine h c
  have hecho := hcount.trans (goes_putWrites hcount.valid ((s.countLine c).tty.termios.echo c))
  obtain ⟨t, ht⟩ : ∃ t, t = (s.countLine c).putWrites ((s.countLine c).tty.termios.echo c) := ⟨_, rfl⟩
  rw [← ht, hcount.cooked, hcount.termios, List.nil_append] at hecho
  have hsame : t.tty.secondary.pending = s.tty.secondary.pending :=
    congrArg Cooked.line hecho.cooked
  have hroom' : ¬ t.tty.secondary.FULL := fun hfull => by
    have hlength := (TtyQueue.full_iff hecho.valid.secondary).mp hfull
    rw [hsame] at hlength
    exact hroom ((TtyQueue.full_iff h.secondary).mpr hlength)
  have hput := TtyQueue.pending_put hecho.valid.secondary hroom' c
  have hqueue : s.queueChar c = t.withSecondary (t.tty.secondary.put c) := by
    rw [ht]
    rfl
  rw [hqueue]
  refine ⟨hecho.valid.withSecondary (hecho.valid.secondary.put c), hecho.termios, hecho.readQ, ?_,
    hecho.overrun, hecho.shown⟩
  have hstopped : t.tty.stopped = s.tty.stopped := congrArg Cooked.stopped hecho.cooked
  show Cooked.mk (t.tty.secondary.put c).pending t.tty.stopped = _
  rw [hput, hsame, hstopped]
  rfl

theorem goes_stopped (h : s.Valid) (v : U32) :
    s.Goes { s with tty := { s.tty with stopped := v } } { s.cooked with stopped := v } [] :=
  ⟨⟨h.readQ, h.writeQ, h.secondary⟩, rfl, rfl, rfl, id, fun _ => rfl⟩

theorem goes_cookChar (h : s.Valid) (hroom : ¬ s.tty.secondary.FULL) (c : BitVec 8) :
    s.Goes (s.cookChar c) (s.tty.termios.coded.cook s.cooked c)
      (s.tty.termios.cookEcho s.cooked.line c) := by
  simp only [cookChar, Discipline.cook, Termios.cookEcho, Termios.coded, decide_eq_true_eq]
  split_ifs
  · exact goes_kill h
  · exact goes_erase h
  · exact goes_stopped h 1
  · exact goes_stopped h 0
  · exact goes_queueChar h hroom c
  · exact goes_queueChar h hroom c

/-! ## The loop -/

/-- From `s` to `s'` the bytes `p` are cooked. -/
structure Cooks (s s' : Terminal) (p : List (BitVec 8)) : Prop where
  valid : s'.Valid
  termios : s'.tty.termios = s.tty.termios
  cooked : s'.cooked = s.tty.termios.coded.run s.cooked p
  overrun : s'.overrun = false → s.overrun = false
  shown : s'.overrun = false →
    s'.shown = s.shown.feed (s.tty.termios.cCc V_ERASE) (s.tty.termios.echoes s.cooked p)

theorem Cooks.refl (h : s.Valid) : s.Cooks s [] := ⟨h, rfl, rfl, id, fun _ => rfl⟩

theorem Cooks.trans {p p' : List (BitVec 8)} (h : s.Cooks s' p) (h' : s'.Cooks s'' p') :
    s.Cooks s'' (p ++ p') := by
  refine ⟨h'.valid, h'.termios.trans h.termios, ?_, fun hover => h.overrun (h'.overrun hover),
    fun hover => ?_⟩
  · rw [h'.cooked, h.cooked, h.termios, Discipline.run, Discipline.run, Discipline.run,
      List.foldl_append]
  · rw [h'.shown hover, h.shown (h'.overrun hover), h.cooked, h.termios, Termios.echoes_append,
      Console.feed_append]

/-- They are taken from `read_q`. -/
structure Takes (s s' : Terminal) (p : List (BitVec 8)) : Prop extends Cooks s s' p where
  taken : s.tty.readQ.pending = p ++ s'.tty.readQ.pending

theorem Takes.refl (h : s.Valid) : s.Takes s [] := ⟨Cooks.refl h, rfl⟩

theorem Takes.trans {p p' : List (BitVec 8)} (h : s.Takes s' p) (h' : s'.Takes s'' p') :
    s.Takes s'' (p ++ p') :=
  ⟨h.toCooks.trans h'.toCooks, by rw [h.taken, h'.taken, List.append_assoc]⟩

theorem goes_cookNext (h : s.Valid) (hroom : ¬ s.tty.secondary.FULL) {b : BitVec 8}
    (hb : s.tty.readQ.buf s.tty.readQ.tail = b) :
    (s.withReadQ s.tty.readQ.incTail).Goes s.cookNext (s.tty.termios.coded.step s.cooked b)
      (s.tty.termios.stepEcho s.cooked b) := by
  have hvalid : (s.withReadQ s.tty.readQ.incTail).Valid :=
    ⟨h.readQ.incTail, h.writeQ, h.secondary⟩
  have hcoded : s.tty.termios.coded.map b = s.tty.termios.mapChar b := rfl
  have hread : (s.withReadQ s.tty.readQ.incTail).tty.termios = s.tty.termios := rfl
  rw [Discipline.step, Termios.stepEcho, cookNext]
  simp only [hb, hcoded, hread]
  cases s.tty.termios.mapChar b with
  | none => exact Goes.refl hvalid
  | some c => exact goes_cookChar hvalid hroom c

theorem takes_cookNext (h : s.Valid) (hbyte : ¬ s.tty.readQ.EMPTY)
    (hroom : ¬ s.tty.secondary.FULL) : ∃ b, s.Takes s.cookNext [b] := by
  have hgoes := goes_cookNext h hroom rfl
  refine ⟨s.tty.readQ.buf s.tty.readQ.tail,
    ⟨hgoes.valid, hgoes.termios, hgoes.cooked, hgoes.overrun, fun hover => ?_⟩, ?_⟩
  · rw [Termios.echoes, Termios.echoes, List.append_nil]
    exact hgoes.shown hover
  · rw [hgoes.readQ]
    exact TtyQueue.pending_cons h.readQ hbyte

theorem takes_cookLoop (h : s.Valid) (n : Nat) : ∃ p, s.Takes (s.cookLoop n) p := by
  induction n generalizing s with
  | zero => exact ⟨[], Takes.refl h⟩
  | succ n ih =>
    rw [cookLoop]
    split_ifs with hstop
    · exact ⟨[], Takes.refl h⟩
    · rw [not_or] at hstop
      obtain ⟨b, hnext⟩ := takes_cookNext h hstop.1 hstop.2
      obtain ⟨p, hrest⟩ := ih hnext.valid
      exact ⟨_, hnext.trans hrest⟩

/-- The loop ends because its condition fails, not for want of passes. -/
theorem cookLoop_done (h : s.Valid) (n : Nat) (hn : s.tty.readQ.pending.length ≤ n) :
    (s.cookLoop n).tty.readQ.EMPTY ∨ (s.cookLoop n).tty.secondary.FULL := by
  induction n generalizing s with
  | zero =>
    exact Or.inl ((TtyQueue.empty_iff h.readQ).mpr (List.length_eq_zero_iff.mp (Nat.le_zero.mp hn)))
  | succ n ih =>
    rw [cookLoop]
    split_ifs with hstop
    · exact hstop
    · rw [not_or] at hstop
      obtain ⟨b, hnext⟩ := takes_cookNext h hstop.1 hstop.2
      refine ih hnext.valid (Nat.le_of_succ_le_succ ?_)
      rwa [hnext.taken] at hn

theorem takes_copyToCooked (h : s.Valid) : ∃ p, s.Takes s.copyToCooked p :=
  takes_cookLoop h _

theorem copyToCooked_done (h : s.Valid) :
    s.copyToCooked.tty.readQ.EMPTY ∨ s.copyToCooked.tty.secondary.FULL :=
  cookLoop_done h _ (TtyQueue.pending_length h.readQ).le

end Terminal

end Driver
end CherryOS
