import CherryOS.Lib.Run
import CherryOS.Kernel.ForkSpec
import CherryOS.Kernel.ExitSpec

/-!
# Frame ownership

`next` is the kernel as a system: any task that is no zombie may fork, any such task but
the first two may exit, and between the calls words of memory outside the page directory
and the page tables change at will.  A call that ends in a `Fault` is no step, so what the
calls do and that they do not fault are two parts of the result.  `Sound` is what every step
keeps.
-/

namespace CherryOS
namespace Kernel

open Mm Lib

/-- What the kernel starts from; `mem_init` is called with `startMem` and `endMem`. -/
structure Boot where
  img : Image
  startMem : U32
  endMem : U32
  jiffies : Int32
  phys : Nat → U32
  gdt : Nat → SegDesc
  task : TaskPtr → TaskStruct

namespace Boot

def state (b : Boot) : State where
  jiffies := b.jiffies
  current := .task0
  tasksPtr := fun nr => if nr = 0 then some .task0 else none
  task := Function.update b.task .task0 (initTask0 b.img)
  img := b.img
  lastPid := 0
  mem :=
    { memMap := Mem.memInit b.startMem b.endMem
      phys := fun w => if w < 1024 then Mem.bootDir w else b.phys w }
  gdt := b.gdt

/-- The frames `mem_init` puts under management. -/
def Managed (b : Boot) (f : Nat) : Prop :=
  256 ≤ f ∧ f < 4096 ∧ mapIndex b.startMem ≤ f - 256 ∧ f - 256 < mapIndex b.endMem

end Boot

inductive Label
  | fork (nr : Fin NUMBER_OF_TASKS) (regs : ForkRegs)
  | exit (nr : Fin NUMBER_OF_TASKS) (code : Int32)
  | store (w : Nat) (v : U32)

namespace State

/-- The task of a slot has the CPU, if it is there and no zombie. -/
def onCpu (s : State) (nr : Fin NUMBER_OF_TASKS) : Option State :=
  match s.tasksPtr nr with
  | none => none
  | some p => if (s.task p).state = .zombie then none
      else some { s with toTasks := { s.toTasks with current := p } }

def result {α : Type} : Except Fault (State × α) → Option State
  | .ok (s, _) => some s
  | .error _ => none

/-- The word lies in no page table. -/
def Plain (m : Mem) (w : Nat) : Prop :=
  1024 ≤ w ∧ ∀ d < 1024, Table (m.phys d) → frameOf (m.phys d) ≠ w / 1024

instance (m : Mem) (w : Nat) : Decidable (Plain m w) := inferInstanceAs (Decidable (_ ∧ _))

def next (s : State) : Label → Option State
  | .fork nr regs => (s.onCpu nr).bind fun s => result (s.copyProcess regs)
  | .exit nr code => if 2 ≤ nr.val then (s.onCpu nr).bind fun s => result (s.doExit code) else none
  | .store w v => if Plain s.mem w then some { s with mem := s.mem.setWord w v } else none

theorem onCpu_spec {s s' : State} {nr : Fin NUMBER_OF_TASKS} (h : s.onCpu nr = some s') :
    ∃ p, s.tasksPtr nr = some p ∧ (s.task p).state ≠ .zombie ∧
      s' = { s with toTasks := { s.toTasks with current := p } } := by
  unfold onCpu at h
  split at h
  · cases h
  · rename_i p hp
    split at h
    · cases h
    · rename_i hz
      exact ⟨p, hp, hz, (Option.some.inj h).symm⟩

theorem onCpu_of {s : State} {nr : Fin NUMBER_OF_TASKS} {p : TaskPtr} (hp : s.tasksPtr nr = some p)
    (hlive : (s.task p).state ≠ .zombie) :
    s.onCpu nr = some { s with toTasks := { s.toTasks with current := p } } := by
  rw [onCpu, hp]
  exact if_neg hlive

/-- A step is a call that a task makes and that does not panic, or a store. -/
inductive Stepped (s : State) : Label → State → Prop
  | fork {nr : Fin NUMBER_OF_TASKS} {regs : ForkRegs} {s' : State} {ret : Int32} (p : TaskPtr)
      (hp : s.tasksPtr nr = some p) (hz : (s.task p).state ≠ .zombie)
      (hok : copyProcess regs { s with toTasks := { s.toTasks with current := p } } =
        .ok (s', ret)) : Stepped s (.fork nr regs) s'
  | exit {nr : Fin NUMBER_OF_TASKS} {code : Int32} {s' : State} {tr : Transfer} (p : TaskPtr)
      (h2 : 2 ≤ nr.val) (hp : s.tasksPtr nr = some p) (hz : (s.task p).state ≠ .zombie)
      (hok : doExit code { s with toTasks := { s.toTasks with current := p } } = .ok (s', tr)) :
      Stepped s (.exit nr code) s'
  | store {w : Nat} {v : U32} (hw : Plain s.mem w) :
      Stepped s (.store w v) { s with mem := s.mem.setWord w v }

theorem Plain.dir {m : Mem} {w d : Nat} (hw : Plain m w) (v : U32) (hd : d < 1024) :
    (m.setWord w v).phys d = m.phys d := by
  have hne : d ≠ w := by
    have := hw.1
    omega
  rw [Mem.setWord_phys, if_neg hne]

/-- A store that lies in no page table leaves every entry as it was. -/
theorem Plain.holds_eq {m : Mem} {w d : Nat} (hw : Plain m w) (v : U32)
    (unionFrame : Fin NUMBER_OF_TASKS → Option Nat) {o : Owner} (hod : o.dir = some d)
    (hd : d < 1024) : holds unionFrame (m.setWord w v) o = holds unionFrame m o := by
  refine holds_congr hod (hw.dir v hd) fun _ ht j hj _ => ?_
  have hne : m.entryWord d j ≠ w := fun hc => by
    refine hw.2 d hd ht ?_
    rw [← hc, MmInv.entryWord_frame hj]
  rw [Mem.setWord_phys, if_neg hne]

theorem result_eq_some {α : Type} {r : Except Fault (State × α)} {s : State}
    (h : result r = some s) : ∃ a, r = .ok (s, a) := by
  cases r with
  | error e => cases h
  | ok r =>
    obtain ⟨s', a⟩ := r
    cases h
    exact ⟨a, rfl⟩

theorem next_cases {s s' : State} {l : Label} (h : s.next l = some s') : Stepped s l s' := by
  cases l with
  | fork nr regs =>
    obtain ⟨t, ht, hres⟩ := Option.bind_eq_some_iff.mp h
    obtain ⟨p, hp, hz, rfl⟩ := onCpu_spec ht
    obtain ⟨ret, hok⟩ := result_eq_some hres
    exact .fork p hp hz hok
  | exit nr code =>
    rw [next] at h
    split at h
    · rename_i h2
      obtain ⟨t, ht, hres⟩ := Option.bind_eq_some_iff.mp h
      obtain ⟨p, hp, hz, rfl⟩ := onCpu_spec ht
      obtain ⟨tr, hok⟩ := result_eq_some hres
      exact .exit p h2 hp hz hok
    · cases h
  | store w v =>
    rw [next] at h
    split at h
    · rename_i hw
      cases h
      exact .store hw
    · cases h

end State

open State

/-- `KInv`, and task 1 is there when any task but `task0` is. -/
structure Sound (managed : Nat → Prop) (s : State) : Prop where
  inv : KInv managed s
  init : ∀ nr, nr ≠ 0 → s.tasksPtr nr ≠ none → s.tasksPtr 1 ≠ none

theorem KInv.withCurrent {managed : Nat → Prop} {s : State} (h : KInv managed s) (p : TaskPtr) :
    KInv managed { s with toTasks := { s.toTasks with current := p } } :=
  h.congr h.mm rfl (fun _ _ => rfl) fun _ _ _ => ⟨rfl, Iff.rfl⟩

section boot

variable (b : Boot)

theorem Boot.phys_dir {d : Nat} (hd : d < 1024) : b.state.mem.phys d = Mem.bootDir d := if_pos hd

/-- Task 0 alone is in the table. -/
theorem Boot.slot {nr : Fin NUMBER_OF_TASKS} {p : TaskPtr} (h : b.state.tasksPtr nr = some p) :
    nr = 0 ∧ p = .task0 := by
  have h : (if nr = 0 then some TaskPtr.task0 else none) = some p := h
  split at h
  · rename_i h0
    exact ⟨h0, (Option.some.inj h).symm⟩
  · cases h

theorem Boot.task0 : b.state.task .task0 = initTask0 b.img := by
  simp only [Boot.state, Function.update_self]

/-- No frame has an owner: `head.s` has set up no page tables. -/
theorem Boot.holds_none (o : Owner) : holds b.state.unionFrame b.state.mem o = none := by
  have hentry : ∀ d, ¬ Table (Mem.bootDir d) := by
    intro d ht
    by_cases hd : d < 4
    · interval_cases d <;> exact absurd ht (by decide)
    · rw [Mem.bootDir, if_neg hd] at ht
      exact absurd ht (by decide)
  cases o with
  | taskUnion nr =>
    show b.state.unionFrame nr = none
    by_cases h : nr = 0
    · have hp : b.state.tasksPtr nr = some .task0 := if_pos h
      rw [Tasks.unionFrame, hp]
    · have hp : b.state.tasksPtr nr = none := if_neg h
      rw [Tasks.unionFrame, hp]
  | dirEntry d =>
    by_cases hd : d < 1024
    · exact holds_dirEntry_none (by rw [b.phys_dir hd]; exact hentry d)
    · exact holds_beyond rfl hd
  | tabEntry d j =>
    by_cases hd : d < 1024
    · exact holds_tabEntry_no_table (by rw [b.phys_dir hd]; exact hentry d)
    · exact holds_beyond rfl hd

/-- The window of task 0 is the four 4 MB pages. -/
theorem Boot.window : Window b.state.mem (0 : Fin NUMBER_OF_TASKS) (initTask0 b.img).ldt := by
  have hcode : (⟨0xFFF, 0xC0FA00⟩ : SegDesc) = userSeg 0xFFF 0xFA 0 := by decide
  have hdata : (⟨0xFFF, 0xC0F200⟩ : SegDesc) = userSeg 0xFFF 0xF2 0 := by decide
  refine ⟨0xFFF, 4, Or.inl ⟨rfl, rfl⟩, hcode, hdata, fun k hk => ?_, fun k hk hk' => ?_⟩
  · have h0 : 16 * (0 : Fin NUMBER_OF_TASKS).val + k = k := by simp
    rw [h0, b.phys_dir (by omega)]
    refine ⟨?_, fun hc => absurd rfl hc⟩
    interval_cases k <;> decide
  · have h0 : 16 * (0 : Fin NUMBER_OF_TASKS).val + k = k := by simp
    rw [h0, b.phys_dir (by omega), Mem.bootDir, if_neg (by omega)]

theorem Boot.sound : Sound b.Managed b.state := by
  refine ⟨⟨⟨fun f hf => ⟨hf.1, hf.2.1⟩, fun i hi hno => ?_, ?_, fun o f ho => ?_⟩, rfl, ?_, ?_, ?_,
    fun nr hnr _ k hk => ?_⟩, fun nr hnr hp => ?_⟩
  · show Mem.memInit b.startMem b.endMem i = NOT_EXIST
    rw [Mem.memInit, if_neg]
    intro hc
    exact hno ⟨by omega, by omega, by rw [Nat.add_sub_cancel]; exact hc.1,
      by rw [Nat.add_sub_cancel]; exact hc.2⟩
  · refine ⟨fun r o _ _ ho => ?_, fun r hr hne => ?_, fun r o o' _ ho => ?_⟩
    · rw [b.holds_none] at ho
      cases ho
    · have h0 : b.state.mem.memMap (r - 256) = 0 := if_pos hr.2.2
      rw [Mem.count, h0] at hne
      exact absurd rfl hne
    · rw [b.holds_none] at ho
      cases ho
  · rw [b.holds_none] at ho
    cases ho
  · rw [b.task0]
    exact fun hc => by cases hc
  · intro nr p hnr hp
    exact absurd (b.slot hp).1 hnr
  · intro nr p hp _
    obtain ⟨rfl, rfl⟩ := b.slot hp
    rw [b.task0]
    exact b.window
  · have hnr64 : nr.val < 64 := nr.isLt
    have hpos : nr.val ≠ 0 := fun hc => hnr (Fin.ext hc)
    rw [b.phys_dir (by omega), Mem.bootDir, if_neg (by omega)]
  · have : b.state.tasksPtr nr = none := if_neg hnr
    exact absurd this hp

end boot

theorem Sound.step {managed : Nat → Prop} {s s' : State} {l : Label} (h : Sound managed s)
    (hl : s.next l = some s') : Sound managed s' := by
  cases State.next_cases hl with
  | @fork nr regs _ ret p hp hz hok =>
    have hout := (h.inv.withCurrent p).copyProcess hp hz regs
    rw [hok] at hout
    cases hout with
    | tableFull pid _ _ =>
      exact ⟨(h.inv.withCurrent p).congr h.inv.mm rfl (fun _ _ => rfl)
        fun _ _ _ => ⟨rfl, Iff.rfl⟩, h.init⟩
    | failed t hk hptr _ _ _ _ _ =>
      refine ⟨hk, ?_⟩
      rw [hptr]
      exact h.init
    | child t j pid q hk hj hnone hfirst _ _ hptr _ _ _ _ _ =>
      refine ⟨hk, fun k hk0 _ => ?_⟩
      rw [hptr]
      by_cases h1 : (1 : Fin NUMBER_OF_TASKS) = j
      · rw [h1, Function.update_self]
        exact fun hc => by cases hc
      · rw [Function.update_of_ne h1]
        exact fun hc => h1 (hfirst hc).symm
  | @exit nr code _ tr p h2 hp hz hok =>
    obtain ⟨t, tr, hok', hk, hptr⟩ := (h.inv.withCurrent p).doExit hp h2 hz code
    cases hok.symm.trans hok'
    have h1 : (1 : Fin NUMBER_OF_TASKS) ≠ nr := by
      intro hc
      rw [← hc] at h2
      exact absurd h2 (by decide)
    refine ⟨hk, fun k hk0 hkp => ?_⟩
    rw [hptr 1 h1]
    by_cases hkn : k = nr
    · exact h.init nr (hkn ▸ hk0) (by rw [hp]; exact fun hc => by cases hc)
    · rw [hptr k hkn] at hkp
      exact h.init k hk0 hkp
  | @store w v hw =>
    have hholds : ∀ o, holds s.unionFrame (s.mem.setWord w v) o =
        holds s.unionFrame s.mem o := by
      intro o
      cases hod : o.dir with
      | none => exact holds_of_dir_none hod
      | some d =>
        by_cases hd : d < 1024
        · exact hw.holds_eq v _ hod hd
        · rw [holds_beyond hod hd, holds_beyond hod hd]
    exact ⟨h.inv.congr (h.inv.mm.keep (funext hholds) rfl) rfl (fun d hd => hw.dir v hd)
      fun _ _ _ => ⟨rfl, Iff.rfl⟩, h.init⟩

theorem Boot.sound_of_run {b : Boot} {ls : List Label} {s : State}
    (h : Run (Steps State.next) b.state ls s) : Sound b.Managed s :=
  h.invariant b.sound fun _ _ _ hs hl => hs.step hl

/-- A machine with the frames from 4 MB to 16 MB under management. -/
def bootOf16MB : Boot where
  img := ⟨0, 0, 0⟩
  startMem := 0x400000
  endMem := 0x1000000
  jiffies := 0
  phys := fun _ => 0
  gdt := fun _ => ⟨0, 0⟩
  task := fun _ => initTask0 ⟨0, 0, 0⟩

def zeroRegs : ForkRegs := ⟨0, 0, 0, 0, 0, 0, 0, 0, 0, 0, 0, 0, 0, 0⟩

end Kernel
end CherryOS
