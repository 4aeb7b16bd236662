import CherryOS.Lib.Machine

/-!
# Code between two instructions of other code

An entry stub saves registers, does its work, calls functions, and pops the registers again.
`Saved` is what holds from the last push to the first pop: the registers are on the stack as
they were, those that were not saved are unchanged, and so are the bytes of `own`, which the
stub and the functions leave alone.

A stub writes only below the frame: `Near base n` are the `n` bytes below `base`.
-/

namespace CherryOS
namespace Lib

/-! ## The bytes that a block writes -/

def Near (base : Word) (n : Nat) : Set Word :=
  fun a => 0 < (base - a).toNat ∧ (base - a).toNat ≤ n

def Away (base : Word) (n : Nat) (m m' : Bytes32) : Prop := ∀ a ∉ Near base n, m' a = m a

variable {base a : Word} {m m' m'' : Bytes32} {n k : Nat} {own : Set Word}

theorem near_mono (h : a ∈ Near base n) (hn : n ≤ k) : a ∈ Near base k :=
  ⟨h.1, Nat.le_trans h.2 hn⟩

theorem Away.refl (base : Word) (n : Nat) (m : Bytes32) : Away base n m m := fun _ _ => rfl

theorem Away.trans (h : Away base n m m') (h' : Away base n m' m'') : Away base n m m'' :=
  fun a ha => (h' a ha).trans (h a ha)

theorem Away.mono (h : Away base n m m') (hn : n ≤ k) : Away base k m m' :=
  fun a ha => h a fun hnear => ha (near_mono hnear hn)

/-- The word at the `k`-th place below `base`. -/
theorem away_writeWord (base : Word) (m : Bytes32) (v : Word) (hk : 0 < k) (hroom : k < 2 ^ 29) :
    Away base (4 * k) m (writeWord m (base - BitVec.ofNat 32 (4 * k)) v) := by
  intro a ha
  apply writeWord_apply
  by_contra hsmall
  apply ha
  have hdist : base - a = BitVec.ofNat 32 (4 * k) - (a - (base - BitVec.ofNat 32 (4 * k))) := by
    ring
  have hlt := (a - (base - BitVec.ofNat 32 (4 * k))).isLt
  show 0 < (base - a).toNat ∧ (base - a).toNat ≤ 4 * k
  rw [hdist, BitVec.toNat_sub, BitVec.toNat_ofNat]
  omega

section
variable {c c' : Cpu} {r r' : Regs} {ws ws' : List Word} {env : Env}

theorem Stands.self (h : Stands base c r ws) : Stands base c c.regs ws := by
  refine ⟨?_, h.stack⟩
  rw [← h.esp]
  rfl

theorem Stands.push_away (h : Stands base c r ws) (hroom : ws.length + 1 < 2 ^ 29) (v : Word) :
    Away base (4 * (ws.length + 1)) c.mem (c.push v).mem := by
  show Away _ _ _ (writeWord c.mem (c.regs.esp - 4) v)
  rw [h.esp, Stack.below]
  exact away_writeWord base c.mem v (Nat.succ_pos _) hroom

theorem Stands.pushAll_away (vs : List Word) (h : Stands base c r ws)
    (hroom : ws.length + vs.length < 2 ^ 29) :
    Away base (4 * (ws.length + vs.length)) c.mem (c.pushAll vs).mem := by
  induction vs generalizing c ws with
  | nil => exact Away.refl _ _ _
  | cons v vs ih =>
    rw [List.length_cons] at hroom ⊢
    have hfirst := h.push_away (by omega) v
    have hrest := ih (h.push (by omega) v) (by rw [List.length_cons]; omega)
    rw [List.length_cons] at hrest
    exact (hfirst.mono (by omega)).trans (hrest.mono (by omega))

/-- An instruction that is not a call writes to the top of the stack or the word below it. -/
theorem Stands.step_away (h : Stands base c r ws) (hroom : ws.length + 1 < 2 ^ 29) {i : Instr}
    (hi : Block.step base i (r, ws) = some (r', ws')) (hc : c.exec env i = some c') :
    Away base (4 * (ws.length + 1)) c.mem c'.mem := by
  cases i with
  | push x | pushImm v =>
    cases hc
    exact h.push_away hroom _
  | xchg x =>
    cases ws with
    | nil => cases hi
    | cons w ws =>
      cases hc
      show Away _ _ _ (writeWord c.mem c.regs.esp _)
      rw [h.esp]
      rw [List.length_cons] at hroom ⊢
      exact (away_writeWord base c.mem _ (Nat.succ_pos _) (by omega)).mono (by omega)
  | pop x | mov x v | movLow x v | movSeg s x | lea x d | drop n =>
    cases hc
    exact Away.refl _ _ _
  | call x | callImm f | callTable b i => cases hi

theorem away_of_block {is : List Instr} (h : Stands base c r ws)
    (hroom : ws.length + is.length < 2 ^ 29)
    (hblock : Block.run base is (r, ws) = some (r', ws')) (hrun : c.run env is = some c') :
    Away base (4 * (ws.length + is.length)) c.mem c'.mem := by
  induction is generalizing c r ws with
  | nil =>
    cases hrun
    exact Away.refl _ _ _
  | cons i is ih =>
    obtain ⟨⟨r₁, ws₁⟩, hi, hrest⟩ := Option.bind_eq_some_iff.mp hblock
    obtain ⟨c₁, hc₁, hrun₁⟩ := Option.bind_eq_some_iff.mp hrun
    rw [List.length_cons] at hroom ⊢
    obtain ⟨c₂, hc₂, h₁⟩ := h.step (by omega) hi env
    cases hc₁.symm.trans hc₂
    have hlen := Block.length_step hi
    have hfirst := h.step_away (by omega) hi hc₁
    have hlast := ih h₁ (by omega) hrest hrun₁
    exact (hfirst.mono (by omega)).trans (hlast.mono (by omega))

end

/-- An interrupt writes its frame. -/
theorem Cpu.interrupt_away (e : Entry) (error : List Word) (c : Cpu) (herror : error.length ≤ 1) :
    Away (c.frameEnd e) 24 c.mem (c.interrupt e error).mem := by
  have hlen := c.length_frame
  have hstart : Lib.Stands (c.frameEnd e) (c.onStack e) (c.onStack e).regs [] := by
    refine ⟨?_, Stack.nil _ _⟩
    rw [List.length_nil, Nat.mul_zero, BitVec.sub_zero]
    rfl
  have haway := hstart.pushAll_away (error ++ c.frame).reverse (by
    rw [List.length_nil, List.length_reverse, List.length_append]
    omega)
  rw [List.length_nil, List.length_reverse, List.length_append] at haway
  have hmem : (c.onStack e).mem = c.mem := by
    rw [onStack]
    split <;> rfl
  rw [hmem] at haway
  exact haway.mono (by omega)

/-! ## Saved registers -/

/-- From the pushes of a stub that was entered with `c₀` to its pops. -/
structure Saved (base : Word) (ws : List Word) (own : Set Word) (xs : List Reg) (c₀ c : Cpu) :
    Prop where
  stands : Stands base c c.regs (xs.map c₀.regs.get ++ ws)
  same : c.regs.SameTask c₀.regs
  kept : ∀ x ∉ xs, c.regs.get x = c₀.regs.get x
  mem : ∀ a ∈ own, c.mem a = c₀.mem a

/-- The bytes of `own` are not among the first `n` below `base`. -/
def Clear (own : Set Word) (base : Word) (n : Nat) : Prop := ∀ a ∈ own, a ∉ Near base n

theorem Clear.mem (h : Clear own base n) (haway : Away base k m m') (hk : k ≤ n) :
    ∀ a ∈ own, m' a = m a :=
  fun a ha => haway a fun hnear => h a ha (near_mono hnear hk)

/-- What a function that is called leaves alone. -/
structure Leaves (base : Word) (own : Set Word) (c c' : Cpu) : Prop where
  frame : c.KeepsFrame base c'
  mem : ∀ a ∈ own, c'.mem a = c.mem a

theorem Leaves.refl (base : Word) (own : Set Word) (c : Cpu) : Leaves base own c c :=
  ⟨Cpu.KeepsFrame.refl base c, fun _ _ => rfl⟩

namespace Saved

variable {ws : List Word} {xs : List Reg} {c₀ c c' : Cpu} {env : Env}

theorem of_block {is : List Instr} {r : Regs} (h : Stands base c₀ c₀.regs ws)
    (hblock : Block.run base is (c₀.regs, ws) = some (r, xs.map c₀.regs.get ++ ws))
    (hkept : ∀ x ∉ xs, r.get x = c₀.regs.get x) (hroom : ws.length + is.length < 2 ^ 29)
    (hclear : Clear own base (4 * (ws.length + is.length))) (env : Env) :
    ∃ c, c₀.run env is = some c ∧ Saved base ws own xs c₀ c ∧ ∀ x, c.regs.get x = r.get x := by
  obtain ⟨c, hc, h'⟩ := run_of_block h hroom hblock env
  have haway := away_of_block h hroom hblock hc
  refine ⟨c, hc, ⟨h'.self, ?_, fun x hx => ?_, hclear.mem haway (le_refl _)⟩, h'.get⟩
  · exact h'.sameTask.trans (Block.run_sameTask hblock)
  · exact (h'.get x).trans (hkept x hx)

/-- A register that was saved may be written. -/
theorem set (h : Saved base ws own xs c₀ c) {x : Reg} (hx : x ∈ xs) (v : Word) :
    Saved base ws own xs c₀ { c with regs := c.regs.set v x } := by
  refine ⟨⟨?_, h.stands.stack⟩, (c.regs.sameTask_set v x).trans h.same, fun y hy => ?_, h.mem⟩
  · rw [← h.stands.esp]
    show c.regs.set v x = _
    rw [← Regs.set_withEsp]
    rfl
  · have hne : y ≠ x := fun heq => hy (heq ▸ hx)
    show (c.regs.set v x).get y = _
    rw [Regs.get_set, if_neg hne]
    exact h.kept y hy

/-- The registers that a function may change are saved. -/
theorem call (h : Saved base ws own xs c₀ c) (hleaves : Leaves base own c c')
    (hroom : xs.length + ws.length < 2 ^ 29)
    (hxs : ∀ x ∉ xs, x = .ebx ∨ x = .esi ∨ x = .edi ∨ x = .ebp) :
    Saved base ws own xs c₀ c' := by
  have hk := hleaves.frame
  have hstands := h.stands.call hk (by rw [List.length_append, List.length_map]; exact hroom)
  refine ⟨hstands, hk.sameTask.trans h.same, fun x hx => ?_, fun a ha => ?_⟩
  · have hsame : c'.regs.get x = c.regs.get x := by
      obtain rfl | rfl | rfl | rfl := hxs x hx
      · exact hk.ebx
      · exact hk.esi
      · exact hk.edi
      · exact hk.ebp
    exact hsame.trans (h.kept x hx)
  · exact (hleaves.mem a ha).trans (h.mem a ha)

/-- All registers are back after the pops. -/
theorem restore (h : Saved base ws own xs c₀ c) (hroom : 2 * xs.length + ws.length < 2 ^ 29)
    (hclear : Clear own base (4 * (2 * xs.length + ws.length))) (env : Env) :
    ∃ c' r, c.run env (xs.map .pop) = some c' ∧ Stands base c' r ws ∧ r.SameTask c₀.regs ∧
      (∀ x, r.get x = c₀.regs.get x) ∧ ∀ a ∈ own, c'.mem a = c₀.mem a := by
  obtain ⟨r, hpops, hget⟩ := Block.run_pops base xs c₀.regs.get c.regs ws
  have hlen : (xs.map c₀.regs.get ++ ws).length + (xs.map Instr.pop).length =
      2 * xs.length + ws.length := by
    rw [List.length_append, List.length_map, List.length_map]
    omega
  obtain ⟨c', hc', h'⟩ := run_of_block h.stands (by omega) hpops env
  have haway := away_of_block h.stands (by omega) hpops hc'
  refine ⟨c', r, hc', h', (Block.run_sameTask hpops).trans h.same, fun x => ?_, fun a ha => ?_⟩
  · rw [hget]
    by_cases hx : x ∈ xs
    · rw [if_pos hx]
      exact Regs.fit_get _ x
    · rw [if_neg hx]
      exact h.kept x hx
  · rw [hclear.mem haway (by omega) a ha]
    exact h.mem a ha

end Saved

end Lib
end CherryOS
