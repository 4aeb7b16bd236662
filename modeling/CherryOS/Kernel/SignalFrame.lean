import CherryOS.Kernel.Dispositions
import CherryOS.Lib.Stack

/-!
# The frame of a signal handler

`do_signal` is called with the registers that were saved on the kernel stack as its
arguments, and stores to two of them.  On the user stack it leaves what a restorer pops to
go on where the task was interrupted: the address of the restorer for the `ret` of the
handler, the number of the signal as its argument, the mask unless the action says that it
stays, four registers and the interrupted `eip`.
-/

namespace CherryOS
namespace Kernel

open Lib Mm

/-- All that `ret_from_system_call` pops. -/
structure TrapFrame extends SignalRegs where
  ebx : U32
  edi : U32
  esi : U32
  ebp : U32
  ds : U32
  es : U32
  fs : U32
  ss : U32

def SigAction.NoMask (a : SigAction) : Prop := a.saFlags &&& SA_NOMASK ≠ 0

instance (a : SigAction) : Decidable a.NoMask := inferInstanceAs (Decidable (_ ≠ _))

/-- The action is one that `sys_signal` or `sys_sigaction` stores. -/
inductive SigAction.Installed : SigAction → Prop
  | oneShot (handler restorer : U32) : Installed (oneShotAction handler restorer)
  | settled (i : Fin 32) (a : SigAction) : Installed (settleMask i a)

/-- An action that leaves the mask alone has none to add. -/
theorem SigAction.Installed.saMask {a : SigAction} (h : a.Installed) (hno : a.NoMask) :
    a.saMask = 0 := by
  cases h with
  | oneShot handler restorer => rfl
  | settled i a =>
    rw [settleMask] at hno ⊢
    split
    · rfl
    · rename_i hmask
      rw [if_neg hmask] at hno
      exact absurd hno hmask

/-- The words from the top of the user stack when the handler of signal `i` starts. -/
def signalWords (i : Fin 32) (t : TaskStruct) (regs : SignalRegs) : List U32 :=
  [(t.sa i).saRestorer, BitVec.ofNat 32 (i.val + 1)] ++
    (if (t.sa i).NoMask then [] else [t.blocked]) ++
    [regs.eax, regs.ecx, regs.edx, regs.eflags, regs.eip]

/-- Where a task was interrupted, with its mask. -/
structure UserContext where
  eax : U32
  ecx : U32
  edx : U32
  eflags : U32
  eip : U32
  esp : U32
  mask : U32
deriving DecidableEq, Repr

def SignalRegs.context (regs : SignalRegs) (mask : U32) : UserContext where
  eax := regs.eax
  ecx := regs.ecx
  edx := regs.edx
  eflags := regs.eflags
  eip := regs.eip
  esp := regs.esp
  mask := mask

def popWord (u : UserMem) (esp : U32) : U32 × U32 := (readWord u esp, esp + 4)

/-- What a restorer goes on with that is entered with `esp` and pops to the end.  A mask that
was not saved is the one in force. -/
def restore (noMask : Bool) (blocked : U32) (u : UserMem) (esp : U32) : UserContext :=
  let (_, esp) := popWord u esp
  let (mask, esp) := if noMask then (blocked, esp) else popWord u esp
  let (eax, esp) := popWord u esp
  let (ecx, esp) := popWord u esp
  let (edx, esp) := popWord u esp
  let (eflags, esp) := popWord u esp
  let (eip, esp) := popWord u esp
  { eax := eax, ecx := ecx, edx := edx, eflags := eflags, eip := eip, esp := esp, mask := mask }

section frame

variable {i : Fin 32} {t : TaskStruct} {regs : SignalRegs} {u : UserMem}

theorem signalWords_noMask (h : (t.sa i).NoMask) : signalWords i t regs =
    [(t.sa i).saRestorer, BitVec.ofNat 32 (i.val + 1), regs.eax, regs.ecx, regs.edx, regs.eflags,
      regs.eip] := by
  rw [signalWords, if_pos h]
  rfl

theorem signalWords_mask (h : ¬ (t.sa i).NoMask) : signalWords i t regs =
    [(t.sa i).saRestorer, BitVec.ofNat 32 (i.val + 1), t.blocked, regs.eax, regs.ecx, regs.edx,
      regs.eflags, regs.eip] := by
  rw [signalWords, if_neg h]
  rfl

theorem signalWords_length_le (i : Fin 32) (t : TaskStruct) (regs : SignalRegs) :
    (signalWords i t regs).length ≤ 8 := by
  by_cases h : (t.sa i).NoMask
  · simp [signalWords_noMask h]
  · simp [signalWords_mask h]

/-- The negative offsets of the source are a sequence of pushes. -/
theorem handlerFrame_eq : handlerFrame i t regs u =
    (pushWords u regs.esp (signalWords i t regs).reverse,
      { regs with
        eip := (t.sa i).saHandler
        esp := downTo regs.esp (signalWords i t regs).length }) := by
  have h8 : regs.esp - 4 - 4 = regs.esp - 8 := Stack.below regs.esp 1
  have h12 : regs.esp - 8 - 4 = regs.esp - 12 := Stack.below regs.esp 2
  have h16 : regs.esp - 12 - 4 = regs.esp - 16 := Stack.below regs.esp 3
  have h20 : regs.esp - 16 - 4 = regs.esp - 20 := Stack.below regs.esp 4
  have h24 : regs.esp - 20 - 4 = regs.esp - 24 := Stack.below regs.esp 5
  have h28 : regs.esp - 24 - 4 = regs.esp - 28 := Stack.below regs.esp 6
  have h32 : regs.esp - 28 - 4 = regs.esp - 32 := Stack.below regs.esp 7
  rw [handlerFrame]
  by_cases h : (t.sa i).NoMask
  · rw [signalWords_noMask h, if_pos (show (t.sa i).saFlags &&& SA_NOMASK ≠ 0 from h)]
    simp only [List.reverse_cons, List.reverse_nil, List.nil_append, List.cons_append, pushWords,
      h8, h12, h16, h20, h24, h28]
    rfl
  · rw [signalWords_mask h, if_neg (show ¬ (t.sa i).saFlags &&& SA_NOMASK ≠ 0 from h)]
    simp only [List.reverse_cons, List.reverse_nil, List.nil_append, List.cons_append, pushWords,
      h8, h12, h16, h20, h24, h28, h32]
    rfl

/-- A restorer gets back what was pushed. -/
theorem restore_signalWords {v : UserMem} {esp blocked : U32}
    (hv : Stack v esp (signalWords i t regs))
    (hesp : esp + BitVec.ofNat 32 (4 * (signalWords i t regs).length) = regs.esp)
    (hblocked : (t.sa i).NoMask → blocked = t.blocked) :
    restore (decide (t.sa i).NoMask) blocked v (esp + 4) = regs.context t.blocked := by
  by_cases h : (t.sa i).NoMask
  · rw [signalWords_noMask h] at hv hesp
    obtain ⟨-, -, heax, hecx, hedx, hflags, heip, -⟩ := hv
    have hend : esp + 4 + 4 + 4 + 4 + 4 + 4 + 4 = regs.esp := by
      rw [← hesp]
      show _ = esp + 28
      ring
    rw [restore, SignalRegs.context, decide_eq_true h]
    simp only [popWord, if_true, heax, hecx, hedx, hflags, heip, hend, hblocked h]
  · rw [signalWords_mask h] at hv hesp
    obtain ⟨-, -, hmask, heax, hecx, hedx, hflags, heip, -⟩ := hv
    have hend : esp + 4 + 4 + 4 + 4 + 4 + 4 + 4 + 4 = regs.esp := by
      rw [← hesp]
      show _ = esp + 32
      ring
    rw [restore, SignalRegs.context, decide_eq_false h]
    simp only [popWord, Bool.false_eq_true, if_false, hmask, heax, hecx, hedx, hflags, heip, hend]

end frame

/-! ## The delivery -/

/-- What the delivery of signal `i` leaves to a task that was interrupted with frame `f`. -/
structure Delivered (s s' : SigState) (i : Fin 32) (f f' : TrapFrame) : Prop where
  eip : f'.eip = (s.cur.sa i).saHandler
  words : Stack s'.user f'.esp (signalWords i s.cur f.toSignalRegs)
  ends : f'.esp + BitVec.ofNat 32 (4 * (signalWords i s.cur f.toSignalRegs).length) = f.esp
  user : ∀ p, 4 * (signalWords i s.cur f.toSignalRegs).length ≤ (p - f'.esp).toNat →
    s'.user p = s.user p
  slots : f' = { f with eip := f'.eip, esp := f'.esp }
  /-- Whatever else the handler does, a restorer gets back. -/
  resumes : (s.cur.sa i).Installed → ∀ v : UserMem,
    (∀ k < 4 * (signalWords i s.cur f.toSignalRegs).length,
      v (f'.esp + BitVec.ofNat 32 k) = s'.user (f'.esp + BitVec.ofNat 32 k)) →
    restore (decide (s.cur.sa i).NoMask) s'.cur.blocked v (f'.esp + 4) =
      f.context s.cur.blocked

namespace SigState

/-- `do_signal` on all that is on the kernel stack. -/
def doSignalFrame (s : SigState) (f : TrapFrame) : Except Fault (SigState × TrapFrame) := do
  let (t, regs) ← s.doSignal f.toSignalRegs
  return (t, { f with toSignalRegs := regs })

theorem enterHandler_blocked (i : Fin 32) (t : TaskStruct) :
    (enterHandler i t).blocked = t.blocked ||| (t.sa i).saMask := by
  rw [enterHandler]
  split <;> rfl

variable (s : SigState) (i : Fin 32) (regs : SignalRegs)

theorem runHandler_user : (s.runHandler i regs).1.user =
    pushWords s.user regs.esp (signalWords i s.cur regs).reverse := by
  rw [runHandler, handlerFrame_eq]
  rfl

theorem runHandler_regs : (s.runHandler i regs).2 =
    { regs with
      eip := (s.cur.sa i).saHandler
      esp := downTo regs.esp (signalWords i s.cur regs).length } := by
  rw [runHandler, handlerFrame_eq]

theorem runHandler_cur : (s.runHandler i regs).1.cur = enterHandler i s.cur := by
  rw [runHandler, setCur_cur]

theorem runHandler_delivered (f : TrapFrame) :
    Delivered s (s.runHandler i f.toSignalRegs).1 i f
      { f with toSignalRegs := (s.runHandler i f.toSignalRegs).2 } := by
  have hlen := signalWords_length_le i s.cur f.toSignalRegs
  have hstack := pushWords_stack (signalWords i s.cur f.toSignalRegs).reverse
    (Stack.nil s.user f.esp) (by rw [List.length_reverse, List.length_nil]; omega)
  have happly := fun p => pushWords_apply (m := s.user) (a := f.esp) (p := p)
    (signalWords i s.cur f.toSignalRegs).reverse (by rw [List.length_reverse]; omega)
  rw [List.length_reverse, List.reverse_reverse, List.append_nil] at hstack
  rw [List.length_reverse] at happly
  have hends := downTo_add f.esp (signalWords i s.cur f.toSignalRegs).length
  rw [runHandler_regs]
  refine ⟨rfl, ?_, hends, fun p hp => ?_, rfl, fun hinst v hv => ?_⟩
  · rw [runHandler_user]
    exact hstack
  · rw [runHandler_user]
    exact happly p hp
  · refine restore_signalWords (hstack.congr fun k hk => ?_) hends fun hno => ?_
    · rw [runHandler_user] at hv
      exact hv k hk
    · rw [runHandler_cur, enterHandler_blocked, hinst.saMask hno]
      exact BitVec.or_zero

variable {s} in
/-- Clearing the pending bit changes nothing that the delivery reads. -/
theorem delivered_of_clear {s' : SigState} {f f' : TrapFrame}
    (h : Delivered (s.setCur (clearSignal i s.cur)) s' i f f') : Delivered s s' i f f' := by
  obtain ⟨heip, hwords, hends, huser, hslots, hresumes⟩ := h
  rw [setCur_cur] at heip hwords hends huser hresumes
  exact ⟨heip, hwords, hends, huser, hslots, hresumes⟩

end SigState

/-- When a task has a handler for the signal that is taken, the handler gets its frame, and
what was interrupted can be gone on with. -/
theorem doSignal_roundtrip (s : SigState) (f : TrapFrame) (i : Fin 32)
    (htask : s.tasksPtr 0 ≠ some s.current) (hcs : f.cs &&& 3 ≠ 0)
    (hsig : pendingSignal s.cur = some i) (hign : (s.cur.sa i).saHandler ≠ SIG_IGN)
    (hdfl : (s.cur.sa i).saHandler ≠ SIG_DFL) :
    ∃ s' f', s.doSignalFrame f = .ok (s', f') ∧ Delivered s s' i f f' := by
  have hsa : (s.setCur (clearSignal i s.cur)).cur.sa = s.cur.sa := by
    rw [SigState.setCur_cur, clearSignal]
  have hdo : s.doSignal f.toSignalRegs =
      .ok ((s.setCur (clearSignal i s.cur)).runHandler i f.toSignalRegs) := by
    rw [SigState.doSignal, if_neg htask, if_neg hcs, hsig]
    dsimp only
    rw [hsa, if_neg hign, if_neg hdfl]
  refine ⟨_, _, ?_, SigState.delivered_of_clear i (SigState.runHandler_delivered _ i f)⟩
  rw [SigState.doSignalFrame, hdo]
  rfl

/-- Task 1 is about to take SIGUSR1, for which it has a handler. -/
def takesSigusr1 : SigState :=
  let boot := bootOf16MB.sigState fun _ => 0
  ((replay SigState.next boot ((sigusr1Acts 0x40).take 5)).bind fun s => s.enter 1).getD boot

def frameOfTask1 : TrapFrame where
  eax := 7
  ecx := 8
  edx := 9
  eip := 0x1234
  cs := 0x0F
  eflags := 0x202
  esp := 0x8000
  ebx := 0
  edi := 0
  esi := 0
  ebp := 0
  ds := 0x17
  es := 0x17
  fs := 0x17
  ss := 0x17

theorem doSignal_roundtrip_sigusr1 :
    ∃ s' f', takesSigusr1.doSignalFrame frameOfTask1 = .ok (s', f') ∧ f'.eip = 0x4000 ∧
      Stack s'.user f'.esp [0, 10, 0x200, 7, 8, 9, 0x202, 0x1234] := by
  have htaken : takesSigusr1.tasksPtr 0 ≠ some takesSigusr1.current ∧
      pendingSignal takesSigusr1.cur = some 9 ∧
      takesSigusr1.cur.sa 9 = ⟨0x4000, 0x4200, 0, 0⟩ ∧ takesSigusr1.cur.blocked = 0x200 := by
    decide +kernel
  obtain ⟨htask, hsig, hsa, hblocked⟩ := htaken
  have hhandler : (takesSigusr1.cur.sa 9).saHandler = 0x4000 := by rw [hsa]
  obtain ⟨s', f', hdo, hdel⟩ := doSignal_roundtrip takesSigusr1 frameOfTask1 9 htask (by decide)
    hsig (by rw [hhandler]; decide) (by rw [hhandler]; decide)
  refine ⟨s', f', hdo, hdel.eip.trans hhandler, ?_⟩
  have hwords := hdel.words
  rw [signalWords, hsa, hblocked] at hwords
  exact hwords

end Kernel
end CherryOS
