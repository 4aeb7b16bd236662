import CherryOS.Driver.LineDiscipline
import CherryOS.Driver.TtyRuns
import CherryOS.Lib.Pipe

/-!
# Room for the echo

`copy_to_cooked` puts what it echoes in `write_q`, and has the console take it only where it
takes a character back.  Seen as a pipe `write_q` loses nothing as long as what a pass puts
before the console takes it fits in the space that is left.  `stepOps` is what a pass does to
the pipe, in order, so that its prefixes are the moments within the pass.
-/

namespace CherryOS
namespace Driver

open Kernel Lib

abbrev WriteOp := PipeOp (BitVec 8)

/-! ## What a pass does to `write_q` -/

namespace Termios

variable (t : Termios)

/-- The bytes that take back a character's echo, and the console takes all that waits. -/
def rubOps (c : BitVec 8) : List WriteOp :=
  if t.cLflag &&& L_ECHO ≠ 0 then (t.rubOut c).map .put ++ [.drain] else []

def eraseOps (line : List (BitVec 8)) : List WriteOp :=
  match line.getLast? with
  | none => []
  | some c => if t.coded.ends c then [] else t.rubOps c

def killOps (line : List (BitVec 8)) : List WriteOp :=
  (line.rtakeWhile fun c => !t.coded.ends c).reverse.flatMap t.rubOps

def cookOps (line : List (BitVec 8)) (c : BitVec 8) : List WriteOp :=
  if t.coded.canon then
    if t.isCc V_KILL c then t.killOps line
    else if t.isCc V_ERASE c then t.eraseOps line
    else if t.isCc V_STOP c then []
    else if t.isCc V_START c then []
    else (t.echo c).map .put
  else (t.echo c).map .put

def stepOps (line : List (BitVec 8)) (b : BitVec 8) : List WriteOp :=
  match t.mapChar b with
  | none => []
  | some c => t.cookOps line c

/-- The bytes that a pass puts before the console first takes them. -/
def burst (line : List (BitVec 8)) (b : BitVec 8) : Nat :=
  match t.mapChar b with
  | none => 0
  | some c =>
    if t.coded.canon then
      if t.isCc V_KILL c ∨ t.isCc V_ERASE c then (t.eraseEcho line).length
      else if t.isCc V_STOP c ∨ t.isCc V_START c then 0
      else (t.echo c).length
    else (t.echo c).length

end Termios

/-! ## The queue as a pipe -/

/-- `write_q` with what has been taken from it.  `overrun` records that a byte was put while
it was full. -/
structure WriteState where
  queue : TtyQueue
  consumed : List (BitVec 8)
  overrun : Bool

namespace WriteState

/-- A queue from which all that waits has been taken. -/
def emptied (q : TtyQueue) : TtyQueue := TtyQueue.incTail^[q.READ_SPACE.toNat] q

def step (f : WriteState) : WriteOp → WriteState
  | .put c => { f with queue := f.queue.put c, overrun := f.overrun || decide f.queue.FULL }
  | .drain => { f with queue := emptied f.queue, consumed := f.consumed ++ f.queue.pending }

def run (f : WriteState) (ops : List WriteOp) : WriteState := ops.foldl step f

/-- Nothing has been lost: what was taken and what waits are what was given, in order. -/
def Kept (f : WriteState) (given : List (BitVec 8)) : Prop :=
  f.overrun = false ∧ f.consumed ++ f.queue.pending = given

theorem run_append (f : WriteState) (ops ops' : List WriteOp) :
    f.run (ops ++ ops') = (f.run ops).run ops' := List.foldl_append

theorem emptied_spec {q : TtyQueue} (h : q.Valid) :
    (emptied q).Valid ∧ (emptied q).pending = [] := TtyQueue.iterate_incTail h rfl

/-- The pipe that the queue stands for. -/
def pipe (f : WriteState) : Pipe (BitVec 8) := ⟨f.consumed, f.queue.pending⟩

variable {f : WriteState} {ops : List WriteOp}

theorem step_valid (h : f.queue.Valid) (op : WriteOp) : (f.step op).queue.Valid := by
  cases op with
  | put c => exact h.put c
  | drain => exact (emptied_spec h).1

theorem overrun_step (op : WriteOp) (h : (f.step op).overrun = false) : f.overrun = false := by
  cases op with
  | put c => exact (Bool.or_eq_false_iff.mp h).1
  | drain => exact h

theorem overrun_run (h : (f.run ops).overrun = false) : f.overrun = false := by
  induction ops generalizing f with
  | nil => exact h
  | cons op ops ih => exact overrun_step op (ih h)

/-- The queue is its pipe as long as nothing is put while it is full. -/
theorem pipe_step (h : f.queue.Valid) (op : WriteOp) (hover : (f.step op).overrun = false) :
    (f.step op).pipe = f.pipe.step op := by
  cases op with
  | put c =>
    have hroom := of_decide_eq_false (Bool.or_eq_false_iff.mp hover).2
    exact congrArg (Pipe.mk f.consumed) (TtyQueue.pending_put h hroom c)
  | drain => exact congrArg (Pipe.mk _) (emptied_spec h).2

theorem pipe_run (h : f.queue.Valid) (hover : (f.run ops).overrun = false) :
    (f.run ops).pipe = f.pipe.run ops := by
  induction ops generalizing f with
  | nil => rfl
  | cons op ops ih =>
    have hfirst : (f.step op).overrun = false := overrun_run hover
    have hstep : (f.step op).pipe = f.pipe.step op := pipe_step h op hfirst
    have hrest : ((f.step op).run ops).pipe = (f.step op).pipe.run ops := ih (step_valid h op) hover
    rw [hstep] at hrest
    exact hrest

/-- Nothing is put in the full queue exactly if the pipe never has to hold more than 1023. -/
theorem overrun_run_iff (h : f.queue.Valid) (hf : f.overrun = false) :
    (f.run ops).overrun = false ↔ Pipe.Room 1023 f.queue.pending.length ops := by
  induction ops generalizing f with
  | nil => exact iff_of_true hf trivial
  | cons op ops ih =>
    cases op with
    | put c =>
      have hle := TtyQueue.pending_length_le h
      have hfull := TtyQueue.full_iff h
      by_cases hroom : f.queue.FULL
      · refine iff_of_false (fun hover => ?_) fun hlt => ?_
        · have hstep : (f.step (.put c)).overrun = false := overrun_run hover
          exact of_decide_eq_false (Bool.or_eq_false_iff.mp hstep).2 hroom
        · have hlt : f.queue.pending.length < 1023 := hlt.1
          rw [hfull] at hroom
          omega
      · have hstep : (f.step (.put c)).overrun = false := by
          show (f.overrun || decide f.queue.FULL) = false
          rw [hf, decide_eq_false hroom]
          rfl
        have hrest := ih (h.put c) hstep
        have hput := congrArg List.length (TtyQueue.pending_put h hroom c)
        rw [List.length_append, List.length_singleton] at hput
        have hmore : (f.step (.put c)).queue.pending.length = f.queue.pending.length + 1 := hput
        rw [hmore] at hrest
        have hlt : f.queue.pending.length < 1023 := by
          rw [hfull] at hroom
          omega
        exact hrest.trans (and_iff_right hlt).symm
    | drain =>
      have hrest := ih (f := f.step .drain) (emptied_spec h).1 hf
      have hnil : (f.step .drain).queue.pending = [] := (emptied_spec h).2
      rw [hnil] at hrest
      exact hrest

end WriteState

/-! ## The passes -/

namespace Termios

variable {t : Termios}

theorem eraseOps_append (line : List (BitVec 8)) (c : BitVec 8) :
    t.eraseOps (line ++ [c]) = if t.coded.ends c then [] else t.rubOps c := by
  rw [eraseOps, List.getLast?_concat]

theorem killOps_append (line : List (BitVec 8)) (c : BitVec 8) :
    t.killOps (line ++ [c]) = if t.coded.ends c then [] else t.rubOps c ++ t.killOps line := by
  rw [killOps, List.rtakeWhile_concat]
  cases t.coded.ends c with
  | true => rfl
  | false =>
    rw [if_pos (by decide), if_neg (by decide), List.reverse_concat, List.flatMap_cons]
    rfl

end Termios

namespace Terminal

/-- `f` is the state of `write_q`, whose bytes the console has taken since it was `c₀`. -/
structure Tracks (c₀ : Console) (f : WriteState) (s : Terminal) : Prop where
  queue : s.tty.writeQ = f.queue
  overrun : s.overrun = f.overrun
  console : s.console = c₀.feed (s.tty.termios.cCc V_ERASE) f.consumed

/-- From `s` to `s'` the operations are performed on `write_q`. -/
structure Performs (s s' : Terminal) (ops : List WriteOp) : Prop where
  termios : s'.tty.termios = s.tty.termios
  tracks : ∀ {c₀ f}, s.Tracks c₀ f → s'.Tracks c₀ (f.run ops)

variable {s s' s'' : Terminal} {ops ops' : List WriteOp}

namespace Performs

theorem refl (s : Terminal) : s.Performs s [] := ⟨rfl, id⟩

/-- Nothing is done where `write_q` and the console stay as they are. -/
theorem of_same (htermios : s'.tty.termios = s.tty.termios) (hqueue : s'.tty.writeQ = s.tty.writeQ)
    (hover : s'.overrun = s.overrun) (hconsole : s'.console = s.console) : s.Performs s' [] := by
  refine ⟨htermios, fun ht => ⟨hqueue.trans ht.queue, hover.trans ht.overrun, ?_⟩⟩
  rw [hconsole, htermios]
  exact ht.console

theorem trans (h : s.Performs s' ops) (h' : s'.Performs s'' ops') :
    s.Performs s'' (ops ++ ops') := by
  refine ⟨h'.termios.trans h.termios, fun ht => ?_⟩
  rw [WriteState.run_append]
  exact h'.tracks (h.tracks ht)

end Performs

theorem performs_putWrite (c : BitVec 8) (s : Terminal) : s.Performs (s.putWrite c) [.put c] := by
  refine ⟨rfl, fun ht => ⟨?_, ?_, ht.console⟩⟩
  · exact congrArg (TtyQueue.put c) ht.queue
  · show (s.overrun || decide s.tty.writeQ.FULL) = _
    rw [ht.overrun, ht.queue]
    rfl

theorem performs_putWrites (bytes : List (BitVec 8)) (s : Terminal) :
    s.Performs (s.putWrites bytes) (bytes.map .put) := by
  induction bytes generalizing s with
  | nil => exact Performs.refl s
  | cons c bytes ih => exact (performs_putWrite c s).trans (ih (s.putWrite c))

theorem performs_write (s : Terminal) : s.Performs s.write [.drain] := by
  refine ⟨rfl, fun ht => ⟨?_, ht.overrun, ?_⟩⟩
  · refine (Console.writeLoop_queue _ s.tty.toTtyStruct s.console).trans ?_
    show TtyQueue.incTail^[s.tty.writeQ.READ_SPACE.toNat] s.tty.writeQ = _
    rw [ht.queue]
    rfl
  · refine (Console.consoleWrite_eq s.tty.toTtyStruct s.console).trans ?_
    show s.console.feed _ s.tty.writeQ.pending = Console.feed _ _ (_ ++ _)
    rw [ht.console, ht.queue, Console.feed_append]
    rfl

theorem performs_echoErase (c : BitVec 8) (s : Terminal) :
    s.Performs (s.echoErase c) (s.tty.termios.rubOps c) := by
  rw [echoErase, Termios.rubOps, Termios.rubOut]
  by_cases hecho : s.tty.termios.cLflag &&& L_ECHO ≠ 0
  · rw [if_pos hecho, if_pos hecho, if_pos hecho]
    exact (performs_putWrites _ s).trans (performs_write _)
  · rw [if_neg hecho, if_neg hecho]
    exact Performs.refl s

theorem performs_takeBack (h : s.takeBack = some s') :
    ¬ s.tty.secondary.EMPTY ∧ s.Performs s' (s.tty.termios.rubOps s.tty.secondary.LAST) := by
  rw [takeBack] at h
  split_ifs at h with hempty
  cases h
  have hecho := performs_echoErase s.tty.secondary.LAST (s.withSecondary s.tty.secondary.decHead)
  have hread : s.Performs (s.withSecondary s.tty.secondary.decHead) [] :=
    Performs.of_same rfl rfl rfl rfl
  have hall := hread.trans hecho
  rw [List.nil_append] at hall
  exact ⟨hempty, hall⟩

/-- A character is taken back from the end of the line, or none can be. -/
theorem takeBack_performs (h : s.Valid) :
    (s.takeBack = none ∧ s.tty.termios.coded.Ended s.cooked.line) ∨
    ∃ s' c, s.takeBack = some s' ∧ s.cooked.line = s'.cooked.line ++ [c] ∧
      ¬ s.tty.termios.coded.ends c ∧ s'.Valid ∧ s.Performs s' (s.tty.termios.rubOps c) := by
  obtain hnone | ⟨s', line, c, hsome, hline, hends, hgoes⟩ := takeBack_cases h
  · exact Or.inl hnone
  · obtain ⟨hempty, hperforms⟩ := performs_takeBack hsome
    have hlast : s.cooked.line = s.tty.secondary.decHead.pending ++ [s.tty.secondary.LAST] :=
      TtyQueue.pending_decHead h.secondary hempty
    have hc : c = s.tty.secondary.LAST :=
      List.singleton_inj.mp (List.append_inj' (hline.symm.trans hlast) rfl).2
    refine Or.inr ⟨s', c, hsome, ?_, hends, hgoes.valid, ?_⟩
    · rw [hgoes.cooked, hline]
    · rw [hc]
      exact hperforms

theorem eraseOps_of_ended {t : Termios} {line : List (BitVec 8)} (h : t.coded.Ended line) :
    t.eraseOps line = [] := by
  obtain rfl | ⟨begun, c, rfl⟩ := List.eq_nil_or_concat' line
  · rfl
  · rw [Termios.eraseOps_append, if_pos (h begun c rfl)]

theorem killOps_of_ended {t : Termios} {line : List (BitVec 8)} (h : t.coded.Ended line) :
    t.killOps line = [] := by
  obtain rfl | ⟨begun, c, rfl⟩ := List.eq_nil_or_concat' line
  · rfl
  · rw [Termios.killOps_append, if_pos (h begun c rfl)]

theorem performs_erase (h : s.Valid) :
    s.Performs s.erase (s.tty.termios.eraseOps s.cooked.line) := by
  rw [erase]
  obtain ⟨hnone, hended⟩ | ⟨s', c, hsome, hline, hends, _, hperforms⟩ := takeBack_performs h
  · rw [hnone, eraseOps_of_ended hended]
    exact Performs.refl s
  · rw [hsome, hline, Termios.eraseOps_append, if_neg hends]
    exact hperforms

theorem performs_killLoop (h : s.Valid) (n : Nat) (hn : s.cooked.line.length ≤ n) :
    s.Performs (s.killLoop n) (s.tty.termios.killOps s.cooked.line) := by
  induction n generalizing s with
  | zero =>
    rw [List.length_eq_zero_iff.mp (Nat.le_zero.mp hn)]
    exact Performs.refl s
  | succ n ih =>
    rw [killLoop]
    obtain ⟨hnone, hended⟩ | ⟨s', c, hsome, hline, hends, hvalid, hperforms⟩ := takeBack_performs h
    · rw [hnone, killOps_of_ended hended]
      exact Performs.refl s
    · rw [hline, List.length_append, List.length_singleton] at hn
      rw [hsome, hline, Termios.killOps_append, if_neg hends, ← hperforms.termios]
      have hrest := ih hvalid (by omega)
      rw [hperforms.termios] at hrest ⊢
      exact hperforms.trans hrest

theorem performs_queueChar (c : BitVec 8) (s : Terminal) :
    s.Performs (s.queueChar c) ((s.tty.termios.echo c).map .put) := by
  have hcount : s.Performs (s.countLine c) [] := by
    rw [countLine]
    split
    · exact Performs.of_same rfl rfl rfl rfl
    · exact Performs.refl s
  have hecho := hcount.trans
    (performs_putWrites ((s.countLine c).tty.termios.echo c) (s.countLine c))
  obtain ⟨t, ht⟩ : ∃ t, t = (s.countLine c).putWrites ((s.countLine c).tty.termios.echo c) :=
    ⟨_, rfl⟩
  rw [← ht, hcount.termios, List.nil_append] at hecho
  have hqueue : s.queueChar c = t.withSecondary (t.tty.secondary.put c) := by
    rw [ht]
    rfl
  rw [hqueue]
  have hlast : t.Performs (t.withSecondary (t.tty.secondary.put c)) [] :=
    Performs.of_same rfl rfl rfl rfl
  have hall := hecho.trans hlast
  rw [List.append_nil] at hall
  exact hall

theorem performs_cookChar (h : s.Valid) (c : BitVec 8) :
    s.Performs (s.cookChar c) (s.tty.termios.cookOps s.cooked.line c) := by
  simp only [cookChar, Termios.cookOps, Termios.coded, decide_eq_true_eq]
  split_ifs
  · exact performs_killLoop h _ (TtyQueue.pending_length h.secondary).le
  · exact performs_erase h
  · exact Performs.of_same rfl rfl rfl rfl
  · exact Performs.of_same rfl rfl rfl rfl
  · exact performs_queueChar c s
  · exact performs_queueChar c s

/-- A pass performs its operations. -/
theorem performs_cookNext (h : s.Valid) :
    s.Performs s.cookNext (s.tty.termios.stepOps s.cooked.line s.nextByte) := by
  have hvalid : (s.withReadQ s.tty.readQ.incTail).Valid :=
    ⟨h.readQ.incTail, h.writeQ, h.secondary⟩
  have hread : s.Performs (s.withReadQ s.tty.readQ.incTail) [] :=
    Performs.of_same rfl rfl rfl rfl
  have hmap : (s.withReadQ s.tty.readQ.incTail).tty.termios.mapChar s.nextByte =
      s.tty.termios.mapChar s.nextByte := rfl
  rw [Termios.stepOps, cookNext]
  simp only [nextByte] at hmap ⊢
  rw [hmap]
  cases s.tty.termios.mapChar (s.tty.readQ.buf s.tty.readQ.tail) with
  | none => exact hread
  | some c => exact hread.trans (performs_cookChar hvalid c)

end Terminal

/-! ## The room a pass needs -/

namespace Termios

variable {t : Termios} {n : Nat}

theorem rubOut_length_le (c : BitVec 8) : (t.rubOut c).length ≤ 2 := by
  rw [rubOut]
  split_ifs
  · exact le_refl 2
  · exact Nat.le_succ 1
  · exact Nat.zero_le 2

theorem level_rubOps (c : BitVec 8) : Pipe.level n (t.rubOps c) = 0 ∨ t.rubOps c = [] := by
  rw [rubOps]
  split_ifs
  · left
    rw [Pipe.level_append]
    rfl
  · exact Or.inr rfl

theorem room_rubOps (hn : n ≤ 1023) (c : BitVec 8) :
    Pipe.Room 1023 n (t.rubOps c) ↔ n + (t.rubOut c).length ≤ 1023 := by
  rw [rubOps]
  split_ifs with hecho
  · have hdrain : Pipe.Room 1023 (Pipe.level n ((t.rubOut c).map PipeOp.put))
        ([.drain] : List WriteOp) := trivial
    rw [Pipe.room_append, and_iff_left hdrain, Pipe.room_puts, or_iff_right]
    rw [rubOut, if_pos hecho]
    split <;> exact List.cons_ne_nil _ _
  · rw [rubOut, if_neg hecho]
    exact iff_of_true trivial hn

theorem room_eraseOps (hn : n ≤ 1023) (line : List (BitVec 8)) :
    Pipe.Room 1023 n (t.eraseOps line) ↔ n + (t.eraseEcho line).length ≤ 1023 := by
  obtain rfl | ⟨line, c, rfl⟩ := List.eq_nil_or_concat' line
  · exact iff_of_true trivial hn
  · rw [eraseOps_append, eraseEcho_append]
    split
    · exact iff_of_true trivial hn
    · exact room_rubOps hn c

/-- Once the queue is empty there is room for every character that is taken back. -/
theorem room_killOps_zero (line : List (BitVec 8)) : Pipe.Room 1023 0 (t.killOps line) := by
  induction line using List.reverseRecOn with
  | nil => trivial
  | append_singleton line c ih =>
    rw [killOps_append]
    split
    · trivial
    · have hle := t.rubOut_length_le c
      rw [Pipe.room_append, room_rubOps (by omega)]
      refine ⟨by omega, ?_⟩
      rcases level_rubOps (t := t) (n := 0) c with hzero | hnil
      · rw [hzero]
        exact ih
      · rw [hnil]
        exact ih

/-- The first character that is taken back needs room, the others find the queue empty. -/
theorem room_killOps (hn : n ≤ 1023) (line : List (BitVec 8)) :
    Pipe.Room 1023 n (t.killOps line) ↔ n + (t.eraseEcho line).length ≤ 1023 := by
  rw [← room_eraseOps hn]
  obtain rfl | ⟨line, c, rfl⟩ := List.eq_nil_or_concat' line
  · exact Iff.rfl
  · rw [killOps_append, eraseOps_append]
    split
    · exact Iff.rfl
    · rw [Pipe.room_append, and_iff_left]
      rcases level_rubOps (t := t) (n := n) c with hzero | hnil
      · rw [hzero]
        exact room_killOps_zero line
      · have hall : t.killOps line = [] := by
          have hnone : ∀ c, t.rubOps c = [] := by
            intro c'
            rw [rubOps] at hnil ⊢
            split_ifs at hnil ⊢
            · exact absurd hnil (by simp)
            · rfl
          rw [killOps, List.flatMap_congr fun c _ => hnone c]
          exact List.flatMap_eq_nil_iff.mpr fun _ _ => rfl
        rw [hall]
        trivial

theorem room_echo (hn : n ≤ 1023) (c : BitVec 8) :
    Pipe.Room 1023 n ((t.echo c).map PipeOp.put) ↔ n + (t.echo c).length ≤ 1023 := by
  rw [Pipe.room_puts]
  constructor
  · rintro (hnil | hle)
    · rw [hnil]
      exact hn
    · exact hle
  · exact Or.inr

/-- A pass needs room for the bytes it puts before the console first takes them. -/
theorem room_stepOps (hn : n ≤ 1023) (line : List (BitVec 8)) (b : BitVec 8) :
    Pipe.Room 1023 n (t.stepOps line b) ↔ n + t.burst line b ≤ 1023 := by
  rw [stepOps, burst]
  cases t.mapChar b with
  | none => exact iff_of_true trivial hn
  | some c =>
    by_cases hcanon : t.coded.canon
    · simp only [cookOps, if_pos hcanon]
      by_cases hkill : t.isCc V_KILL c
      · rw [if_pos hkill, if_pos (Or.inl hkill)]
        exact room_killOps hn line
      · by_cases herase : t.isCc V_ERASE c
        · rw [if_neg hkill, if_pos herase, if_pos (Or.inr herase)]
          exact room_eraseOps hn line
        · rw [if_neg hkill, if_neg herase, if_neg (not_or_intro hkill herase)]
          by_cases hstop : t.isCc V_STOP c
          · rw [if_pos hstop, if_pos (Or.inl hstop)]
            exact iff_of_true trivial hn
          · by_cases hstart : t.isCc V_START c
            · rw [if_neg hstop, if_pos hstart, if_pos (Or.inr hstart)]
              exact iff_of_true trivial hn
            · rw [if_neg hstop, if_neg hstart, if_neg (not_or_intro hstop hstart)]
              exact room_echo hn c
    · simp only [cookOps, if_neg hcanon]
      exact room_echo hn c

/-- What a pass gives the queue is what it echoes. -/
theorem given_stepOps (s : Cooked) (b : BitVec 8) :
    Pipe.given (t.stepOps s.line b) = t.stepEcho s b := by
  have hrub : ∀ c, Pipe.given (t.rubOps c) = t.rubOut c := by
    intro c
    rw [rubOps]
    split_ifs with hecho
    · rw [Pipe.given_append, Pipe.given_puts]
      exact List.append_nil _
    · rw [rubOut, if_neg hecho]
      rfl
  have hkill : ∀ line, Pipe.given (t.killOps line) = t.killEcho line := by
    intro line
    induction line using List.reverseRecOn with
    | nil => rfl
    | append_singleton line c ih =>
      rw [killOps_append, killEcho_append]
      split
      · rfl
      · rw [Pipe.given_append, hrub, ih]
  have herase : ∀ line, Pipe.given (t.eraseOps line) = t.eraseEcho line := by
    intro line
    obtain rfl | ⟨line, c, rfl⟩ := List.eq_nil_or_concat' line
    · rfl
    · rw [eraseOps_append, eraseEcho_append]
      split
      · rfl
      · exact hrub c
  rw [stepOps, stepEcho]
  cases t.mapChar b with
  | none => rfl
  | some c =>
    simp only [cookOps, cookEcho]
    split_ifs
    · exact hkill _
    · exact herase _
    · rfl
    · rfl
    · exact Pipe.given_puts _
    · exact Pipe.given_puts _

end Termios

/-! ## Runs -/

/-- A terminal, the bytes it has taken from `read_q`, and what has been done to its `write_q`. -/
structure Echoed where
  term : Terminal
  taken : List (BitVec 8)
  trace : List WriteOp

namespace Terminal

def opsOf (s : Terminal) : TtyEvent → List WriteOp
  | .key _ => []
  | .pass => s.tty.termios.stepOps s.cooked.line s.nextByte

def bytesOf (s : Terminal) : TtyEvent → List (BitVec 8)
  | .key _ => []
  | .pass => [s.nextByte]

/-- `write_q` before anything is done to it. -/
def writeState (s : Terminal) : WriteState := ⟨s.tty.writeQ, [], s.overrun⟩

end Terminal

namespace Echoed

def Step (w : Echoed) (e : TtyEvent) (w' : Echoed) : Prop :=
  w.term.Next e w'.term ∧ w'.taken = w.taken ++ w.term.bytesOf e ∧
    w'.trace = w.trace ++ w.term.opsOf e

/-- A pass puts no more before the console takes it than there is space for. -/
def HasRoom (w : Echoed) : TtyEvent → Prop
  | .key _ => True
  | .pass => w.term.tty.writeQ.pending.length +
      w.term.tty.termios.burst w.term.cooked.line w.term.nextByte ≤ 1023

/-- What has been put in the queue is the echo of the bytes taken.  At every moment since `s₀`
no byte has been put while the queue was full, and what the console has taken and what waits are
what waited at first and the echo since, in order. -/
structure Kept (s₀ : Terminal) (w : Echoed) : Prop where
  echo : Pipe.given w.trace = s₀.tty.termios.echoes s₀.cooked w.taken
  tracks : w.term.Tracks s₀.console (s₀.writeState.run w.trace)
  moments : ∀ ops, ops <+: w.trace →
    (s₀.writeState.run ops).Kept (s₀.tty.writeQ.pending ++ Pipe.given ops)

variable {s₀ s s' : Terminal} {w w' : Echoed} {e : TtyEvent} {es : List TtyEvent}

theorem run_of_next (hrun : Run Terminal.Next s es s') :
    ∃ taken trace, Run Step ⟨s, [], []⟩ es ⟨s', taken, trace⟩ := by
  induction hrun with
  | nil => exact ⟨[], [], Run.nil⟩
  | snoc _ hs ih =>
    obtain ⟨taken, trace, hrun⟩ := ih
    exact ⟨_, _, hrun.snoc ⟨hs, rfl, rfl⟩⟩

theorem next_of_run (hrun : Run Step w es w') : Run Terminal.Next w.term es w'.term := by
  induction hrun with
  | nil => exact Run.nil
  | snoc _ hs ih => exact ih.snoc hs.1

/-- The trace is what has been done to the queue. -/
theorem tracks_step {f : WriteState} (h : w.term.Valid) (hs : Step w e w')
    (ht : w.term.Tracks s₀.console f) :
    w'.term.Tracks s₀.console (f.run (w.term.opsOf e)) := by
  obtain ⟨term', taken', trace'⟩ := w'
  obtain ⟨hnext, _⟩ := hs
  cases hnext with
  | key b => exact ⟨ht.queue, ht.overrun, ht.console⟩
  | pass => exact (Terminal.performs_cookNext h).tracks ht

theorem tracks_run (h : s₀.Valid) (hrun : Run Step ⟨s₀, [], []⟩ es w) :
    w.term.Tracks s₀.console (s₀.writeState.run w.trace) := by
  induction hrun with
  | nil => exact ⟨rfl, rfl, rfl⟩
  | snoc hrun hs ih =>
    have hvalid := (Terminal.run_valid h (next_of_run hrun)).1
    rw [hs.2.2, WriteState.run_append]
    exact tracks_step hvalid hs ih

/-- What is put in the queue is the echo of what is taken. -/
theorem echo_run (h : s₀.Valid) (hrun : Run Step ⟨s₀, [], []⟩ es w) :
    w.term.cooked = s₀.tty.termios.coded.run s₀.cooked w.taken ∧
      Pipe.given w.trace = s₀.tty.termios.echoes s₀.cooked w.taken := by
  induction hrun with
  | nil => exact ⟨rfl, rfl⟩
  | @snoc es v w e hrun hs ih =>
    obtain ⟨hcooked, hgiven⟩ := ih
    obtain ⟨hvalid, htermios⟩ := Terminal.run_valid h (next_of_run hrun)
    have hafter := (Terminal.next_goes hvalid hs.1).2.2
    have hmore : s₀.tty.termios.coded.run s₀.cooked (v.taken ++ v.term.bytesOf e) =
        s₀.tty.termios.coded.run v.term.cooked (v.term.bytesOf e) := by
      rw [hcooked, Discipline.run, Discipline.run, Discipline.run, List.foldl_append]
    rw [hs.2.1, hs.2.2, Pipe.given_append, hgiven, Termios.echoes_append, ← hcooked, hmore]
    cases e with
    | key b => exact ⟨hafter, rfl⟩
    | pass =>
      rw [htermios] at hafter
      refine ⟨hafter, ?_⟩
      rw [Terminal.opsOf, htermios, Termios.given_stepOps]
      exact congrArg _ (List.append_nil _).symm

/-- Whether anything is lost shows at the end. -/
theorem moments_iff (h : s₀.Valid) (trace : List WriteOp) :
    (∀ ops, ops <+: trace →
      (s₀.writeState.run ops).Kept (s₀.tty.writeQ.pending ++ Pipe.given ops)) ↔
    (s₀.writeState.run trace).overrun = false := by
  constructor
  · intro hall
    exact (hall trace (List.prefix_refl trace)).1
  · rintro hover ops ⟨rest, rfl⟩
    rw [WriteState.run_append] at hover
    have hbefore : (s₀.writeState.run ops).overrun = false := WriteState.overrun_run hover
    have hpipe := WriteState.pipe_run h.writeQ hbefore
    have hgiven := Pipe.run_all s₀.writeState.pipe ops
    rw [← hpipe] at hgiven
    exact ⟨hbefore, hgiven⟩

/-- One more pass loses nothing exactly if there is room for it. -/
theorem overrun_iff_room (h : w.term.Valid) (hs : Step w e w') {f : WriteState}
    (ht : w.term.Tracks s₀.console f) (hf : f.overrun = false) :
    (f.run (w.term.opsOf e)).overrun = false ↔ HasRoom w e := by
  cases e with
  | key b => exact iff_of_true hf trivial
  | pass =>
    have hqueue : f.queue.Valid := ht.queue ▸ h.writeQ
    have hle := TtyQueue.pending_length_le hqueue
    rw [WriteState.overrun_run_iff hqueue hf, Terminal.opsOf, HasRoom, ht.queue]
    exact Termios.room_stepOps hle _ _

theorem room_of_kept (h : s₀.Valid) (hrun : Run Step ⟨s₀, [], []⟩ es w)
    (hover : (s₀.writeState.run w.trace).overrun = false) :
    Run (Guarded HasRoom Step) ⟨s₀, [], []⟩ es w := by
  induction hrun with
  | nil => exact Run.nil
  | snoc hrun hs ih =>
    have hvalid := (Terminal.run_valid h (next_of_run hrun)).1
    rw [hs.2.2, WriteState.run_append] at hover
    have hbefore := WriteState.overrun_run hover
    have hroom := (overrun_iff_room hvalid hs (tracks_run h hrun) hbefore).mp hover
    exact (ih hbefore).snoc ⟨hroom, hs⟩

theorem kept_of_room (h : s₀.Valid) (hstart : s₀.overrun = false)
    (hrun : Run (Guarded HasRoom Step) ⟨s₀, [], []⟩ es w) :
    (s₀.writeState.run w.trace).overrun = false := by
  induction hrun with
  | nil => exact hstart
  | snoc hrun hs ih =>
    have hvalid := (Terminal.run_valid h (next_of_run hrun.of_guarded)).1
    rw [hs.2.2.2, WriteState.run_append]
    exact (overrun_iff_room hvalid hs.2 (tracks_run h hrun.of_guarded) ih).mpr hs.1

/-- The echo of a run is kept if and only if every pass finds room for what it puts before the
console takes it. -/
theorem echo_kept_iff (h : s₀.Valid) (hover : s₀.overrun = false)
    (hrun : Run Step ⟨s₀, [], []⟩ es w) :
    Kept s₀ w ↔ Run (Guarded HasRoom Step) ⟨s₀, [], []⟩ es w := by
  constructor
  · intro hkept
    exact room_of_kept h hrun ((moments_iff h w.trace).mp hkept.moments)
  · intro hroom
    exact ⟨(echo_run h hrun).2, tracks_run h hrun,
      (moments_iff h w.trace).mpr (kept_of_room h hover hroom)⟩

/-- Ctrl-A at the kernel's terminal. -/
theorem echo_kept_iff_typed :
    ∃ w, Run Step ⟨Terminal.typed kernelTermios [] [], [], []⟩ [.key 1, .pass] w ∧
      (Kept (Terminal.typed kernelTermios [] []) w ↔
        Run (Guarded HasRoom Step) ⟨Terminal.typed kernelTermios [] [], [], []⟩
          [.key 1, .pass] w) := by
  obtain ⟨s, hrun⟩ :
      ∃ s, Run Terminal.Next (Terminal.typed kernelTermios [] []) [.key 1, .pass] s :=
    ⟨_, Run.cons (.key 1) (Run.single (.pass (by decide) (by decide)))⟩
  obtain ⟨taken, trace, hsteps⟩ := run_of_next hrun
  exact ⟨_, hsteps, echo_kept_iff (Terminal.typed_valid kernelTermios [] []) rfl hsteps⟩

/-- The kernel's terminal puts two bytes for each Ctrl-A, and the console takes none. -/
theorem run_ctrlA (n : Nat) {s : Terminal} (h : s.Valid) (ht : s.tty.termios = kernelTermios)
    (hkeys : s.tty.readQ.pending = List.replicate n 1) (hroom : s.cooked.line.length + n ≤ 1023)
    (taken : List (BitVec 8)) (trace : List WriteOp) :
    ∃ s' taken', Run Step ⟨s, taken, trace⟩ (List.replicate n .pass)
      ⟨s', taken', trace ++ ((List.replicate n [0x5E, 0x41]).flatten.map .put)⟩ := by
  induction n generalizing s taken trace with
  | zero =>
    refine ⟨s, taken, ?_⟩
    rw [List.replicate_zero, List.replicate_zero, List.flatten_nil, List.map_nil, List.append_nil]
    exact Run.nil
  | succ n ih =>
    have hbyte : ¬ s.tty.readQ.EMPTY := fun hempty => by
      rw [(TtyQueue.empty_iff h.readQ).mp hempty] at hkeys
      cases hkeys
    have hfull : ¬ s.tty.secondary.FULL := fun hfull => by
      have hline : s.cooked.line.length = 1023 := (TtyQueue.full_iff h.secondary).mp hfull
      omega
    have hcons := TtyQueue.pending_cons h.readQ hbyte
    rw [hkeys, List.replicate_succ] at hcons
    obtain ⟨hnext, hrest⟩ := List.cons_eq_cons.mp hcons
    have hone : s.nextByte = 1 := hnext.symm
    have hstep : Step ⟨s, taken, trace⟩ .pass
        ⟨s.cookNext, taken ++ s.bytesOf .pass, trace ++ s.opsOf .pass⟩ :=
      ⟨.pass hbyte hfull, rfl, rfl⟩
    have hops : s.opsOf .pass = [.put 0x5E, .put 0x41] := by
      rw [Terminal.opsOf, ht, hone]
      rfl
    have hgoes := Terminal.goes_cookNext h hfull rfl
    have hcooked : s.cookNext.cooked.line = s.cooked.line ++ [1] := by
      rw [hgoes.cooked, ht]
      have hone' : s.tty.readQ.buf s.tty.readQ.tail = 1 := hone
      rw [hone']
      rfl
    have hread : s.cookNext.tty.readQ.pending = List.replicate n 1 := by
      rw [hgoes.readQ]
      exact hrest.symm
    have hmore : s.cookNext.cooked.line.length + n ≤ 1023 := by
      rw [hcooked, List.length_append, List.length_singleton]
      omega
    obtain ⟨s', taken', hrun⟩ := ih hgoes.valid (hgoes.termios.trans ht) hread hmore
      (taken ++ s.bytesOf .pass) (trace ++ s.opsOf .pass)
    refine ⟨s', taken', ?_⟩
    rw [hops, List.append_assoc] at hrun
    rw [hops] at hstep
    exact Run.cons hstep hrun

/-- A terminal with nothing waiting but the keys that have been typed. -/
theorem typed_waiting (t : Termios) {keys : List (BitVec 8)} (h : keys.length ≤ 1023) :
    (Terminal.typed t [] keys).tty.readQ.pending = keys ∧
      (Terminal.typed t [] keys).cooked.line = [] ∧
      (Terminal.typed t [] keys).writeState.queue.pending = [] := by
  have hline : (TtyQueue.ofList []).pending = [] := TtyQueue.pending_ofList (Nat.zero_le _)
  have hnil : TtyQueue.empty.pending = [] := by decide
  have hcooked : (Terminal.typed t [] keys).cooked = ⟨[], 0⟩ := congrArg (Cooked.mk · 0) hline
  exact ⟨TtyQueue.pending_ofList h, congrArg Cooked.line hcooked, hnil⟩

/-- A call that finds 512 times Ctrl-A puts 1024 bytes in the queue, which holds 1023. -/
theorem echo_overruns :
    ¬ ∀ (s₀ : Terminal) (es : List TtyEvent) (w : Echoed), s₀.Valid → s₀.overrun = false →
      s₀.tty.termios.cLflag &&& L_ECHO ≠ 0 → Run Step ⟨s₀, [], []⟩ es w → Kept s₀ w := by
  intro h
  obtain ⟨keys, hctrlA⟩ : ∃ keys : List (BitVec 8), keys = List.replicate 512 1 := ⟨_, rfl⟩
  have hlength : keys.length ≤ 1023 := by
    rw [hctrlA, List.length_replicate]
    decide
  have hvalid := Terminal.typed_valid kernelTermios [] keys
  obtain ⟨hkeys, hline, hnil⟩ := typed_waiting kernelTermios hlength
  obtain ⟨s', taken, hrun⟩ := run_ctrlA 512 hvalid rfl (hkeys.trans hctrlA)
    (by rw [hline, List.length_nil]; omega) [] []
  have hecho : kernelTermios.cLflag &&& L_ECHO ≠ 0 := by decide
  have hkept := h _ _ _ hvalid rfl hecho hrun
  have hover := (moments_iff hvalid _).mp hkept.moments
  rw [WriteState.overrun_run_iff hvalid.writeQ rfl, hnil, List.nil_append, Pipe.room_puts] at hover
  have hbytes : (List.replicate 512 [(0x5E : BitVec 8), 0x41]).flatten.length = 1024 := by
    rw [List.length_flatten, List.map_replicate, List.sum_replicate, smul_eq_mul]
    rfl
  rcases hover with hempty | hle
  · rw [hempty] at hbytes
    cases hbytes
  · rw [hbytes, List.length_nil] at hle
    omega

end Echoed

end Driver
end CherryOS
