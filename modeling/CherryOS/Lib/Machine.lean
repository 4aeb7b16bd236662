import CherryOS.Lib.Stack

/-!
# Straight-line code on an i386

The registers, the instructions that entry stubs are made of, and what a call, an interrupt
and `iret` do.  A function that is called is given by what it does between the call and its
return, `none` when it does not return.  Data that no code here writes is apart from the
memory the stack is in.  `eip` is not followed inside a block of code, and pushing a segment
register extends it with zeros.

A block of code that only pushes, pops and moves can be run on a list instead of a stack in
memory: `Block.run` is that run, and `run_of_block` is why it may be used.  The address of
the stack's top is a matter of the list's length, so no run computes with `esp`.
-/

namespace CherryOS
namespace Lib

abbrev Word := BitVec 32

@[ext] structure Regs where
  eax : Word
  ecx : Word
  edx : Word
  ebx : Word
  esi : Word
  edi : Word
  ebp : Word
  esp : Word
  eip : Word
  eflags : Word
  cs : BitVec 16
  ss : BitVec 16
  ds : BitVec 16
  es : BitVec 16
  fs : BitVec 16
  gs : BitVec 16
deriving DecidableEq, Repr

structure Cpu where
  regs : Regs
  mem : Bytes32

/-- What code is linked with: the functions it calls and the tables it reads. -/
structure Env where
  call : Word → Cpu → Option Cpu
  data : Word → Word

/-- The registers that code saves and restores. -/
inductive Reg
  | eax | ecx | edx | ebx | esi | edi | ebp | ds | es | fs
deriving DecidableEq, Repr

inductive Instr
  | push (r : Reg)
  | pushImm (v : Word)
  | pop (r : Reg)
  | mov (r : Reg) (v : Word)
  /-- A move to the low half of a register. -/
  | movLow (r : Reg) (v : BitVec 16)
  /-- A move to a segment register from the low half of a general one. -/
  | movSeg (s r : Reg)
  /-- `xchg r, [esp]` -/
  | xchg (r : Reg)
  /-- `lea r, [esp+disp]` -/
  | lea (r : Reg) (disp : Word)
  /-- `add esp, 4*n` -/
  | drop (n : Nat)
  | call (r : Reg)
  | callImm (a : Word)
  /-- `call [b+4*i]` -/
  | callTable (b i : Reg)
deriving DecidableEq, Repr

/-- A selector fits in the low half of a word. -/
theorem setWidth_selector (s : BitVec 16) : (s.setWidth 32).setWidth 16 = s := by
  rw [BitVec.setWidth_setWidth_of_le _ (by decide), BitVec.setWidth_eq]

/-- What a register keeps of a word. -/
def Reg.fit : Reg → Word → Word
  | .ds, v | .es, v | .fs, v => (v.setWidth 16).setWidth 32
  | _, v => v

namespace Regs

def get (r : Regs) : Reg → Word
  | .eax => r.eax
  | .ecx => r.ecx
  | .edx => r.edx
  | .ebx => r.ebx
  | .esi => r.esi
  | .edi => r.edi
  | .ebp => r.ebp
  | .ds => r.ds.setWidth 32
  | .es => r.es.setWidth 32
  | .fs => r.fs.setWidth 32

def set (r : Regs) (v : Word) : Reg → Regs
  | .eax => { r with eax := v }
  | .ecx => { r with ecx := v }
  | .edx => { r with edx := v }
  | .ebx => { r with ebx := v }
  | .esi => { r with esi := v }
  | .edi => { r with edi := v }
  | .ebp => { r with ebp := v }
  | .ds => { r with ds := v.setWidth 16 }
  | .es => { r with es := v.setWidth 16 }
  | .fs => { r with fs := v.setWidth 16 }

def withEsp (r : Regs) (a : Word) : Regs := { r with esp := a }

@[simp] theorem withEsp_withEsp (r : Regs) (a b : Word) : (r.withEsp a).withEsp b = r.withEsp b :=
  rfl

@[simp] theorem get_withEsp (r : Regs) (a : Word) (x : Reg) : (r.withEsp a).get x = r.get x := by
  cases x <;> rfl

theorem set_withEsp (r : Regs) (a v : Word) (x : Reg) :
    (r.withEsp a).set v x = (r.set v x).withEsp a := by
  cases x <;> rfl

theorem get_set (r : Regs) (v : Word) (x y : Reg) :
    (r.set v x).get y = if y = x then x.fit v else r.get y := by
  cases x <;> cases y <;> rfl

/-- A word read from a register fits in it. -/
theorem fit_get (r : Regs) (x : Reg) : x.fit (r.get x) = r.get x := by
  cases x with
  | ds | es | fs => exact congrArg (BitVec.setWidth 32) (setWidth_selector _)
  | _ => rfl

/-- What no block of code changes. -/
structure SameTask (r r' : Regs) : Prop where
  cs : r.cs = r'.cs
  ss : r.ss = r'.ss
  gs : r.gs = r'.gs

theorem SameTask.trans {r r' r'' : Regs} (h : SameTask r r') (h' : SameTask r' r'') :
    SameTask r r'' :=
  ⟨h.cs.trans h'.cs, h.ss.trans h'.ss, h.gs.trans h'.gs⟩

theorem sameTask_set (r : Regs) (v : Word) (x : Reg) : SameTask (r.set v x) r := by
  cases x <;> exact ⟨rfl, rfl, rfl⟩

/-- Registers are what can be read, and what `iret` loads. -/
theorem ext_get {r r' : Regs} (h : ∀ x, r.get x = r'.get x) (hsame : SameTask r r')
    (hesp : r.esp = r'.esp) (heip : r.eip = r'.eip) (hflags : r.eflags = r'.eflags) : r = r' := by
  have hseg : ∀ s s' : BitVec 16, s.setWidth 32 = s'.setWidth 32 → s = s' := fun s s' hs => by
    rw [← setWidth_selector s, hs, setWidth_selector]
  exact Regs.ext (h .eax) (h .ecx) (h .edx) (h .ebx) (h .esi) (h .edi) (h .ebp) hesp heip hflags
    hsame.cs hsame.ss (hseg _ _ (h .ds)) (hseg _ _ (h .es)) (hseg _ _ (h .fs)) hsame.gs

@[simp] theorem set_esp (r : Regs) (v : Word) (x : Reg) : (r.set v x).esp = r.esp := by
  cases x <;> rfl

end Regs

/-- The low half of a register replaced. -/
def lowHalf (w : Word) (v : BitVec 16) : Word := (w &&& 0xFFFF0000) ||| v.setWidth 32

namespace Cpu

def push (c : Cpu) (v : Word) : Cpu :=
  { regs := c.regs.withEsp (c.regs.esp - 4), mem := writeWord c.mem (c.regs.esp - 4) v }

def pushAll (c : Cpu) (vs : List Word) : Cpu := vs.foldl push c

def top (c : Cpu) : Word := readWord c.mem c.regs.esp

def exec (env : Env) (i : Instr) (c : Cpu) : Option Cpu :=
  match i with
  | .push r => some (c.push (c.regs.get r))
  | .pushImm v => some (c.push v)
  | .pop r => some { c with regs := (c.regs.set c.top r).withEsp (c.regs.esp + 4) }
  | .mov r v => some { c with regs := c.regs.set v r }
  | .movLow r v => some { c with regs := c.regs.set (lowHalf (c.regs.get r) v) r }
  | .movSeg s r => some { c with regs := c.regs.set (c.regs.get r) s }
  | .xchg r => some
      { regs := c.regs.set c.top r, mem := writeWord c.mem c.regs.esp (c.regs.get r) }
  | .lea r disp => some { c with regs := c.regs.set (c.regs.esp + disp) r }
  | .drop n => some { c with regs := c.regs.withEsp (c.regs.esp + BitVec.ofNat 32 (4 * n)) }
  | .call r => env.call (c.regs.get r) c
  | .callImm a => env.call a c
  | .callTable b i => env.call (env.data (c.regs.get b + 4 * c.regs.get i)) c

def run (env : Env) : List Instr → Cpu → Option Cpu
  | [], c => some c
  | i :: is, c => (c.exec env i).bind (run env is)

theorem run_append (env : Env) (is js : List Instr) (c : Cpu) :
    run env (is ++ js) c = (run env is c).bind (run env js) := by
  induction is generalizing c with
  | nil => rfl
  | cons i is ih =>
    rw [List.cons_append, run, run, Option.bind_assoc]
    exact congrArg _ (funext ih)

/-- The address an instruction calls. -/
def target (env : Env) (c : Cpu) : Instr → Option Word
  | .call r => some (c.regs.get r)
  | .callImm a => some a
  | .callTable b i => some (env.data (c.regs.get b + 4 * c.regs.get i))
  | _ => none

/-- The addresses called, in order, up to a call that does not return. -/
def calls (env : Env) : List Instr → Cpu → List Word
  | [], _ => []
  | i :: is, c => (c.target env i).toList ++ ((c.exec env i).elim [] (calls env is))

theorem calls_append (env : Env) (is js : List Instr) (c : Cpu) :
    calls env (is ++ js) c = calls env is c ++ (run env is c).elim [] (calls env js) := by
  induction is generalizing c with
  | nil => rfl
  | cons i is ih =>
    rw [List.cons_append, calls, calls, run, List.append_assoc]
    cases c.exec env i with
    | none => rfl
    | some c' => rw [Option.elim_some, Option.elim_some, ih, Option.bind_some]

/-- Each address called is that of one of the calls. -/
theorem mem_calls {env : Env} {is : List Instr} {c : Cpu} {a : Word} (h : a ∈ calls env is c) :
    ∃ i ∈ is, ∃ c', target env c' i = some a := by
  induction is generalizing c with
  | nil => cases h
  | cons i is ih =>
    rw [calls, List.mem_append, Option.mem_toList] at h
    obtain h | h := h
    · exact ⟨i, List.mem_cons_self, c, h⟩
    · cases hc : c.exec env i with
      | none =>
        rw [hc] at h
        cases h
      | some c' =>
        rw [hc] at h
        obtain ⟨j, hj, hc'⟩ := ih h
        exact ⟨j, List.mem_cons_of_mem i hj, hc'⟩

def isCall : Instr → Bool
  | .call _ | .callImm _ | .callTable _ _ => true
  | _ => false

theorem isCall_of_target {env : Env} {c : Cpu} {i : Instr} {a : Word}
    (h : target env c i = some a) : isCall i = true := by
  cases i with
  | call r | callImm a | callTable b i => rfl
  | _ => cases h

theorem calls_eq_nil (env : Env) {is : List Instr} (h : is.all fun i => !isCall i) (c : Cpu) :
    calls env is c = [] := by
  refine List.eq_nil_iff_forall_not_mem.mpr fun a ha => ?_
  obtain ⟨i, hi, c', hc'⟩ := mem_calls ha
  have hnot := List.all_eq_true.mp h i hi
  rw [isCall_of_target hc'] at hnot
  cases hnot

/-- What a function that has returned leaves alone: the registers its caller may rely on and
the stack from the call up to `top`. -/
structure KeepsFrame (top : Word) (c c' : Cpu) : Prop where
  esp : c'.regs.esp = c.regs.esp
  ebx : c'.regs.ebx = c.regs.ebx
  esi : c'.regs.esi = c.regs.esi
  edi : c'.regs.edi = c.regs.edi
  ebp : c'.regs.ebp = c.regs.ebp
  cs : c'.regs.cs = c.regs.cs
  ss : c'.regs.ss = c.regs.ss
  gs : c'.regs.gs = c.regs.gs
  mem : ∀ k < (top - c.regs.esp).toNat,
    c'.mem (c.regs.esp + BitVec.ofNat 32 k) = c.mem (c.regs.esp + BitVec.ofNat 32 k)

theorem KeepsFrame.refl (top : Word) (c : Cpu) : KeepsFrame top c c :=
  ⟨rfl, rfl, rfl, rfl, rfl, rfl, rfl, rfl, fun _ _ => rfl⟩

theorem KeepsFrame.sameTask {top : Word} {c c' : Cpu} (h : KeepsFrame top c c') :
    c'.regs.SameTask c.regs :=
  ⟨h.cs, h.ss, h.gs⟩

/-! ## Interrupts -/

/-- The privilege level in a selector. -/
def level (selector : BitVec 16) : BitVec 16 := selector &&& 3

/-- What the task state segment and the gate supply. -/
structure Entry where
  cs : BitVec 16
  ss : BitVec 16
  esp : Word
  handler : Word
  /-- The flags the gate clears. -/
  mask : Word

/-- The words the processor pushes, the last one first. -/
def frame (c : Cpu) : List Word :=
  [c.regs.eip, c.regs.cs.setWidth 32, c.regs.eflags] ++
    if level c.regs.cs = 0 then [] else [c.regs.esp, c.regs.ss.setWidth 32]

/-- The stack an interrupt is taken on: that of the interrupted code if it runs at level 0. -/
def onStack (e : Entry) (c : Cpu) : Cpu :=
  if level c.regs.cs = 0 then c
  else { c with regs := { c.regs.withEsp e.esp with ss := e.ss } }

def interrupt (e : Entry) (error : List Word) (c : Cpu) : Cpu :=
  let c' := (c.onStack e).pushAll (error ++ c.frame).reverse
  let flags := c.regs.eflags &&& ~~~ e.mask
  { c' with regs := { c'.regs with cs := e.cs, eip := e.handler, eflags := flags } }

def iret (c : Cpu) : Cpu :=
  let word i := readWord c.mem (c.regs.esp + BitVec.ofNat 32 (4 * i))
  let cs := (word 1).setWidth 16
  let r := { c.regs with eip := word 0, cs := cs, eflags := word 2 }
  if level cs = level c.regs.cs then { c with regs := r.withEsp (c.regs.esp + 12) }
  else { c with regs := { r.withEsp (word 3) with ss := (word 4).setWidth 16 } }

end Cpu

/-! ## Blocks on a list -/

/-- The machine stands on a stack that ends at `base` and holds `ws`; but for `esp` its
registers are `r`. -/
structure Stands (base : Word) (c : Cpu) (r : Regs) (ws : List Word) : Prop where
  regs : c.regs = r.withEsp (base - BitVec.ofNat 32 (4 * ws.length))
  stack : Stack c.mem (base - BitVec.ofNat 32 (4 * ws.length)) ws

namespace Block

/-- One instruction on a list. -/
def step (base : Word) (i : Instr) (s : Regs × List Word) : Option (Regs × List Word) :=
  match i, s with
  | .push x, (r, ws) => some (r, r.get x :: ws)
  | .pushImm v, (r, ws) => some (r, v :: ws)
  | .pop x, (r, w :: ws) => some (r.set w x, ws)
  | .mov x v, (r, ws) => some (r.set v x, ws)
  | .movLow x v, (r, ws) => some (r.set (lowHalf (r.get x) v) x, ws)
  | .movSeg s x, (r, ws) => some (r.set (r.get x) s, ws)
  | .xchg x, (r, w :: ws) => some (r.set w x, r.get x :: ws)
  | .lea x disp, (r, ws) => some (r.set (base - BitVec.ofNat 32 (4 * ws.length) + disp) x, ws)
  | .drop n, (r, ws) => if n ≤ ws.length then some (r, ws.drop n) else none
  | _, _ => none

def run (base : Word) : List Instr → Regs × List Word → Option (Regs × List Word)
  | [], s => some s
  | i :: is, s => (step base i s).bind (run base is)

end Block

namespace Stands

variable {base : Word} {c : Cpu} {r : Regs} {w : Word} {ws : List Word}

theorem esp (h : Stands base c r ws) :
    c.regs.esp = base - BitVec.ofNat 32 (4 * ws.length) := by
  rw [h.regs]
  rfl

theorem sameTask (h : Stands base c r ws) : c.regs.SameTask r := by
  rw [h.regs]
  exact ⟨rfl, rfl, rfl⟩

theorem get (h : Stands base c r ws) (x : Reg) : c.regs.get x = r.get x := by
  rw [h.regs, Regs.get_withEsp]

theorem top (h : Stands base c r (w :: ws)) : c.top = w := by
  rw [Cpu.top, h.esp]
  exact h.stack.1

theorem above (base : Word) {n k : Nat} (h : k ≤ n) : base - BitVec.ofNat 32 (4 * n) +
    BitVec.ofNat 32 (4 * k) = base - BitVec.ofNat 32 (4 * (n - k)) := by
  obtain ⟨d, rfl⟩ := Nat.exists_eq_add_of_le h
  rw [Nat.add_sub_cancel_left, Nat.mul_add, BitVec.ofNat_add]
  ring

theorem push (h : Stands base c r ws) (hroom : ws.length < 2 ^ 29) (v : Word) :
    Stands base (c.push v) r (v :: ws) := by
  have hesp := h.esp
  refine ⟨?_, ?_⟩
  · rw [Cpu.push, hesp, h.regs, Regs.withEsp_withEsp, Stack.below, List.length_cons]
  · rw [Cpu.push, hesp, List.length_cons, ← Stack.below]
    exact h.stack.push (by omega) v

theorem pushAll (vs : List Word) (h : Stands base c r ws)
    (hroom : ws.length + vs.length < 2 ^ 29) :
    Stands base (c.pushAll vs) r (vs.reverse ++ ws) := by
  induction vs generalizing c ws with
  | nil => exact h
  | cons v vs ih =>
    rw [List.length_cons] at hroom
    have hnext := ih (h.push (by omega) v) (by rw [List.length_cons]; omega)
    rw [List.reverse_cons, List.append_assoc]
    exact hnext

theorem step (h : Stands base c r ws) (hroom : ws.length < 2 ^ 29) {i : Instr} {r' : Regs}
    {ws' : List Word} (hi : Block.step base i (r, ws) = some (r', ws'))
    (env : Env) : ∃ c', c.exec env i = some c' ∧ Stands base c' r' ws' := by
  -- a register other than `esp` is set
  have hset : ∀ (v : Word) (x : Reg), Stands base { c with regs := c.regs.set v x } (r.set v x) ws := by
    intro v x
    refine ⟨?_, h.stack⟩
    show c.regs.set v x = _
    rw [h.regs, Regs.set_withEsp]
  cases i with
  | push x =>
    cases hi
    exact ⟨_, rfl, by rw [h.get]; exact h.push hroom _⟩
  | pushImm v =>
    cases hi
    exact ⟨_, rfl, h.push hroom v⟩
  | pop x =>
    cases ws with
    | nil => cases hi
    | cons w ws =>
      cases hi
      refine ⟨_, rfl, ?_, ?_⟩
      · show (c.regs.set c.top x).withEsp (c.regs.esp + 4) = _
        rw [h.top, h.esp, h.regs, Regs.set_withEsp, Regs.withEsp_withEsp, List.length_cons,
          ← Stack.below, BitVec.sub_add_cancel]
      · have hst := h.stack.2
        rwa [List.length_cons, ← Stack.below, BitVec.sub_add_cancel] at hst
  | mov x v =>
    cases hi
    exact ⟨_, rfl, hset v x⟩
  | movLow x v =>
    cases hi
    exact ⟨_, rfl, by rw [h.get]; exact hset _ x⟩
  | movSeg s x =>
    cases hi
    exact ⟨_, rfl, by rw [h.get]; exact hset _ s⟩
  | xchg x =>
    cases ws with
    | nil => cases hi
    | cons w ws =>
      cases hi
      refine ⟨_, rfl, ?_, ?_⟩
      · show c.regs.set c.top x = _
        rw [h.top, h.regs, Regs.set_withEsp]
        rfl
      · show Stack (writeWord c.mem c.regs.esp (c.regs.get x)) _ _
        rw [h.get, h.esp]
        exact h.stack.replace (by rw [List.length_cons] at hroom; omega) _
  | lea x disp =>
    cases hi
    exact ⟨_, rfl, by rw [h.esp]; exact hset _ x⟩
  | drop n =>
    rw [Block.step] at hi
    split at hi
    · rename_i hn
      cases hi
      refine ⟨_, rfl, ?_, ?_⟩
      · show c.regs.withEsp _ = _
        rw [h.esp, h.regs, Regs.withEsp_withEsp, above base hn, List.length_drop]
      · have hst : Stack c.mem (base - BitVec.ofNat 32 (4 * ws.length)) (ws.take n ++ ws.drop n) := by
          rw [List.take_append_drop]
          exact h.stack
        have hdrop := hst.append.2
        rwa [List.length_take, Nat.min_eq_left hn, above base hn, ← List.length_drop] at hdrop
    · cases hi
  | call x => cases hi
  | callImm a => cases hi
  | callTable b i => cases hi

end Stands

theorem Block.length_step {base : Word} {i : Instr} {r r' : Regs} {ws ws' : List Word}
    (h : Block.step base i (r, ws) = some (r', ws')) : ws'.length ≤ ws.length + 1 := by
  cases i with
  | drop n =>
    rw [Block.step] at h
    split at h
    · cases h
      rw [List.length_drop]
      omega
    · cases h
  | pop x =>
    cases ws <;> cases h
    rw [List.length_cons]
    omega
  | xchg x =>
    cases ws <;> cases h
    rw [List.length_cons, List.length_cons]
    omega
  | push x => cases h; simp
  | pushImm v => cases h; simp
  | mov x v => cases h; simp
  | movLow x v => cases h; simp
  | movSeg s x => cases h; simp
  | lea x d => cases h; simp
  | call x => cases h
  | callImm a => cases h
  | callTable b i => cases h

theorem Block.step_sameTask {base : Word} {i : Instr} {r r' : Regs} {ws ws' : List Word}
    (h : Block.step base i (r, ws) = some (r', ws')) : r'.SameTask r := by
  cases i with
  | push x | pushImm v =>
    cases h
    exact ⟨rfl, rfl, rfl⟩
  | mov x v | movLow x v | movSeg s x | lea x d =>
    cases h
    exact r.sameTask_set _ _
  | pop x | xchg x =>
    cases ws <;> cases h
    exact r.sameTask_set _ _
  | drop n =>
    rw [Block.step] at h
    split at h <;> cases h
    exact ⟨rfl, rfl, rfl⟩
  | call x | callImm a | callTable b i => cases h

theorem Block.run_sameTask {base : Word} {is : List Instr} {r r' : Regs} {ws ws' : List Word}
    (h : Block.run base is (r, ws) = some (r', ws')) : r'.SameTask r := by
  induction is generalizing r ws with
  | nil =>
    cases h
    exact ⟨rfl, rfl, rfl⟩
  | cons i is ih =>
    obtain ⟨⟨r₁, ws₁⟩, hi, hrest⟩ := Option.bind_eq_some_iff.mp h
    exact (ih hrest).trans (Block.step_sameTask hi)

/-- What a block does on a list, it does on the machine. -/
theorem run_of_block {base : Word} {is : List Instr} {c : Cpu} {r r' : Regs} {ws ws' : List Word}
    (h : Stands base c r ws) (hroom : ws.length + is.length < 2 ^ 29)
    (hrun : Block.run base is (r, ws) = some (r', ws')) (env : Env) :
    ∃ c', c.run env is = some c' ∧ Stands base c' r' ws' := by
  induction is generalizing c r ws with
  | nil =>
    cases hrun
    exact ⟨c, rfl, h⟩
  | cons i is ih =>
    obtain ⟨⟨r₁, ws₁⟩, hi, hrest⟩ := Option.bind_eq_some_iff.mp hrun
    rw [List.length_cons] at hroom
    obtain ⟨c₁, hc₁, h₁⟩ := h.step (by omega) hi env
    have hlen := Block.length_step hi
    obtain ⟨c', hc', h'⟩ := ih h₁ (by omega) hrest
    exact ⟨c', by rw [Cpu.run, hc₁, Option.bind_some, hc'], h'⟩

/-- A call that keeps the frame. -/
theorem Stands.call {base : Word} {c c' : Cpu} {r : Regs} {ws : List Word}
    (h : Stands base c r ws) (hk : Cpu.KeepsFrame base c c') (hroom : ws.length < 2 ^ 29) :
    Stands base c' c'.regs ws := by
  have hesp := hk.esp.trans h.esp
  refine ⟨by rw [← hesp]; rfl, h.stack.congr fun k hk' => ?_⟩
  rw [← h.esp]
  refine hk.mem k ?_
  rw [h.esp, sub_sub_cancel, BitVec.toNat_ofNat]
  omega

/-- Up to a call in a block and back. -/
theorem call_in_block {base : Word} {env : Env} (pre : List Instr) {post : List Instr} (i : Instr)
    {c c' : Cpu} {r r₁ : Regs} {ws : List Word} (ws₁ : List Word)
    (h : Stands base c r ws) (hpre : Block.run base pre (r, ws) = some (r₁, ws₁))
    (hroom : ws.length + pre.length < 2 ^ 29) (hroom₁ : ws₁.length < 2 ^ 29)
    (hkeeps : ∀ c₁ c₂ : Cpu, c₁.exec env i = some c₂ → c₁.KeepsFrame base c₂)
    (hrun : c.run env (pre ++ i :: post) = some c') :
    ∃ c₁ c₂, c.run env pre = some c₁ ∧ Stands base c₁ r₁ ws₁ ∧ c₁.exec env i = some c₂ ∧
      Stands base c₂ c₂.regs ws₁ ∧ c₂.regs.SameTask r ∧ c₂.run env post = some c' := by
  obtain ⟨c₁, hc₁, h₁⟩ := run_of_block h hroom hpre env
  rw [Cpu.run_append, hc₁, Option.bind_some, Cpu.run, Option.bind_eq_some_iff] at hrun
  obtain ⟨c₂, hc₂, hrest⟩ := hrun
  have hk := hkeeps c₁ c₂ hc₂
  exact ⟨c₁, c₂, hc₁, h₁, hc₂, h₁.call hk hroom₁,
    (hk.sameTask.trans h₁.sameTask).trans (Block.run_sameTask hpre), hrest⟩

/-! ### Restoring registers -/

/-- Pops in the order the words lie in. -/
theorem Block.run_pops (base : Word) (xs : List Reg) (g : Reg → Word) (r : Regs) (ws : List Word) :
    ∃ r', Block.run base (xs.map .pop) (r, xs.map g ++ ws) = some (r', ws) ∧
      ∀ y, r'.get y = if y ∈ xs then y.fit (g y) else r.get y := by
  induction xs generalizing r with
  | nil => exact ⟨r, rfl, fun y => rfl⟩
  | cons x xs ih =>
    obtain ⟨r', hrun, hget⟩ := ih (r.set (g x) x)
    refine ⟨r', hrun, fun y => ?_⟩
    rw [hget, Regs.get_set]
    by_cases hy : y ∈ xs
    · rw [if_pos hy, if_pos (List.mem_cons_of_mem x hy)]
    · rw [if_neg hy]
      by_cases hyx : y = x
      · rw [if_pos hyx, if_pos (by rw [hyx]; exact List.mem_cons_self), hyx]
      · rw [if_neg hyx, if_neg fun h => (List.mem_cons.mp h).elim hyx hy]

theorem Stands.drop {base : Word} {c : Cpu} {r : Regs} {us ws : List Word}
    (h : Stands base c r (us ++ ws)) (hroom : us.length + ws.length < 2 ^ 29) (env : Env) :
    ∃ c', c.exec env (.drop us.length) = some c' ∧ Stands base c' r ws := by
  refine h.step (by rw [List.length_append]; exact hroom) ?_ env
  rw [Block.step, if_pos (by rw [List.length_append]; omega), List.drop_left]

/-- All registers popped. -/
theorem Stands.restore {base : Word} {c : Cpu} {r : Regs} (xs : List Reg) (g : Reg → Word)
    {ws : List Word} (h : Stands base c r (xs.map g ++ ws)) (hall : ∀ x, x ∈ xs)
    (hroom : 2 * xs.length + ws.length < 2 ^ 29) (env : Env) :
    ∃ c' r', c.run env (xs.map .pop) = some c' ∧ Stands base c' r' ws ∧ r'.SameTask r ∧
      ∀ x, r'.get x = x.fit (g x) := by
  obtain ⟨r', hpops, hget⟩ := Block.run_pops base xs g r ws
  obtain ⟨c', hc', h'⟩ := run_of_block h (by
    rw [List.length_append, List.length_map, List.length_map]
    omega) hpops env
  refine ⟨c', r', hc', h', Block.run_sameTask hpops, fun x => ?_⟩
  rw [hget, if_pos (hall x)]

/-- Words on top dropped, then all registers popped. -/
theorem Stands.dropRestore {base : Word} {c : Cpu} {r : Regs} {xs : List Reg} {g : Reg → Word}
    {us ws : List Word} (h : Stands base c r (us ++ (xs.map g ++ ws))) (hall : ∀ x, x ∈ xs)
    (hroom : us.length + 2 * xs.length + ws.length < 2 ^ 29) (env : Env) :
    ∃ c' r', c.run env (.drop us.length :: xs.map .pop) = some c' ∧ Stands base c' r' ws ∧
      r'.SameTask r ∧ ∀ x, r'.get x = x.fit (g x) := by
  obtain ⟨c₁, hc₁, h₁⟩ := h.drop (by rw [List.length_append, List.length_map]; omega) env
  obtain ⟨c', r', hc', h', hsame, hget⟩ := h₁.restore xs g hall (by omega) env
  refine ⟨c', r', ?_, h', hsame, hget⟩
  rw [Cpu.run, hc₁]
  exact hc'

/-! ## From an interrupt to its `iret` -/

namespace Cpu

variable (e : Entry) (error : List Word) (c : Cpu)

/-- The address above the frame of an interrupt. -/
def frameEnd : Word := (c.onStack e).regs.esp

/-- The address of the frame, where the processor has put `eip`. -/
def frameStart : Word := c.frameEnd e - BitVec.ofNat 32 (4 * c.frame.length)

theorem length_frame : c.frame.length ≤ 5 := by
  rw [frame]
  split
  · show 3 ≤ 5
    decide
  · exact le_refl 5

/-- The stack a handler starts on. -/
theorem interrupt_stands (herror : error.length ≤ 1) :
    Lib.Stands (c.frameEnd e) (c.interrupt e error) (c.interrupt e error).regs
      (error ++ c.frame) := by
  have hstart : Lib.Stands (c.frameEnd e) (c.onStack e) (c.onStack e).regs [] := by
    refine ⟨?_, Stack.nil _ _⟩
    rw [List.length_nil, Nat.mul_zero, BitVec.sub_zero]
    rfl
  have hlen := c.length_frame
  have hall := hstart.pushAll (error ++ c.frame).reverse (by
    rw [List.length_nil, List.length_reverse, List.length_append]
    omega)
  rw [List.reverse_reverse, List.append_nil] at hall
  refine ⟨?_, hall.stack⟩
  have hesp : (c.interrupt e error).regs.esp = _ := hall.esp
  rw [← hesp]
  rfl

theorem pushAll_regs (vs : List Word) : ∃ a, (c.pushAll vs).regs = c.regs.withEsp a := by
  induction vs generalizing c with
  | nil => exact ⟨c.regs.esp, rfl⟩
  | cons v vs ih =>
    obtain ⟨a, ha⟩ := ih (c.push v)
    exact ⟨a, ha.trans (Regs.withEsp_withEsp c.regs _ a)⟩

/-- The registers a handler starts with. -/
theorem interrupt_regs (e : Entry) (error : List Word) (c : Cpu) :
    ∃ a eflags, (c.interrupt e error).regs =
      { c.regs with cs := e.cs, eip := e.handler, eflags := eflags,
                    esp := a, ss := (c.onStack e).regs.ss } := by
  obtain ⟨a, ha⟩ := (c.onStack e).pushAll_regs (error ++ c.frame).reverse
  refine ⟨a, c.regs.eflags &&& ~~~ e.mask, ?_⟩
  show ({ ((c.onStack e).pushAll _).regs with cs := _, eip := _, eflags := _ } : Regs) = _
  rw [ha, onStack]
  split <;> rfl

/-- `iret` at the frame of an interrupt undoes it. -/
theorem iret_frame {e : Entry} {c c' : Cpu} {r : Regs} (h : Lib.Stands (c.frameEnd e) c' r c.frame)
    (hcs : level r.cs = 0) (hss : r.ss = (c.onStack e).regs.ss) :
    c'.iret.regs = { r with eip := c.regs.eip, cs := c.regs.cs, eflags := c.regs.eflags,
                            esp := c.regs.esp, ss := c.regs.ss } := by
  have hst : Stack c'.mem c'.regs.esp c.frame := by
    rw [h.esp]
    exact h.stack
  have h0 := hst.word (i := 0) (w := c.regs.eip) rfl
  have h1 := hst.word (i := 1) (w := c.regs.cs.setWidth 32) rfl
  have h2 := hst.word (i := 2) (w := c.regs.eflags) rfl
  have hcs' : c'.regs.cs = r.cs := by
    rw [h.regs]
    rfl
  by_cases hl : level c.regs.cs = 0
  · -- the stack was not changed
    have hsame : level c.regs.cs = level c'.regs.cs := by
      rw [hl, hcs', hcs]
    have hlen : c.frame.length = 3 := by
      rw [frame, if_pos hl]
      rfl
    have hend : c.frameEnd e = c.regs.esp := by
      rw [frameEnd, onStack, if_pos hl]
    have hesp : c'.regs.esp + 12 = c.regs.esp := by
      rw [h.esp, hlen, hend]
      exact BitVec.sub_add_cancel _ _
    rw [onStack, if_pos hl] at hss
    rw [iret]
    simp only [h0, h1, h2, setWidth_selector, hesp, if_pos hsame]
    rw [h.regs, ← hss]
    rfl
  · have hframe : c.frame = [c.regs.eip, c.regs.cs.setWidth 32, c.regs.eflags, c.regs.esp,
        c.regs.ss.setWidth 32] := by
      rw [frame, if_neg hl]
      rfl
    rw [hframe] at hst
    have h3 := hst.word (i := 3) (w := c.regs.esp) rfl
    have h4 := hst.word (i := 4) (w := c.regs.ss.setWidth 32) rfl
    have hother : level c.regs.cs ≠ level c'.regs.cs := by
      rw [hcs', hcs]
      exact hl
    rw [iret]
    simp only [h0, h1, h2, h3, h4, setWidth_selector, if_neg hother]
    rw [h.regs]
    rfl

theorem interrupt_get (e : Entry) (error : List Word) (c : Cpu) (x : Reg) :
    (c.interrupt e error).regs.get x = c.regs.get x := by
  obtain ⟨_, _, hregs⟩ := interrupt_regs e error c
  rw [hregs]
  cases x <;> rfl

/-- The registers after the `iret` of a handler that is back at the frame. -/
theorem iret_eq_iff {e : Entry} {error : List Word} {c c' : Cpu} {r r' : Regs}
    (hcs : level e.cs = 0) (h : Lib.Stands (c.frameEnd e) c' r c.frame)
    (hsame : r.SameTask (c.interrupt e error).regs) (hr' : r'.SameTask c.regs)
    (hesp : r'.esp = c.regs.esp) (heip : r'.eip = c.regs.eip)
    (hflags : r'.eflags = c.regs.eflags) :
    c'.iret.regs = r' ↔ ∀ x, r.get x = r'.get x := by
  obtain ⟨_, _, hregs⟩ := interrupt_regs e error c
  rw [hregs] at hsame
  have hiret := iret_frame h (by rw [hsame.cs]; exact hcs) hsame.ss
  have hget : ∀ x, c'.iret.regs.get x = r.get x := fun x => by
    rw [hiret]
    cases x <;> rfl
  refine ⟨fun heq x => ?_, fun heq => ?_⟩
  · rw [← hget, heq]
  · refine Regs.ext_get (fun x => (hget x).trans (heq x)) ⟨?_, ?_, ?_⟩ ?_ ?_ ?_ <;> rw [hiret]
    · exact hr'.cs.symm
    · exact hr'.ss.symm
    · exact hsame.gs.trans hr'.gs.symm
    · exact hesp.symm
    · exact heip.symm
    · exact hflags.symm

end Cpu

end Lib
end CherryOS
