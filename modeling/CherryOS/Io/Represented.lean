import CherryOS.Io.Flow

/-!
# The cache represents what it holds

After any sequence of steps, of any number of tasks, the free list is a ring of every
head and the hash chains hold the heads with a device.  A look-up therefore finds the
buffer of a block if there is one, except for device 0, which `insert_into_queues` puts on
no chain.
-/

namespace CherryOS
namespace Io

open Kernel (U32)
open Fs (BufferHead Cache NR_HASH)
open Driver
open Lib

variable {n : Nat} {Task : Type} [DecidableEq Task]

theorem wellFormed_step {mode : AddMode} {s s' : System n Task} {a : Act n Task}
    (h : s.mem.cache.WellFormed) (hs : s.next mode a = some s') :
    s'.mem.cache.WellFormed := by
  rcases System.step_sameLinks_or_claim hs with hsame | ⟨t, w, b, c, _, _, _, _, hc, hm⟩
  · exact h.congr hsame
  · obtain ⟨c', hc', _, hwf⟩ := h.claim b w.dev w.block
    have hcc : c = c' := Option.some.inj (hc.symm.trans hc')
    rw [hm, hcc]
    exact hwf

theorem wellFormed_run [NeZero n] {mode : AddMode} {s₀ s : System n Task}
    {as : List (Act n Task)} (h₀ : Booted s₀) (h : Run (System.Step mode) s₀ as s) :
    s.mem.cache.WellFormed := by
  refine h.invariant ?_ fun _ _ _ ha hs => wellFormed_step ha hs
  obtain ⟨bufferEnd, blocknr, hcache⟩ := h₀.cache
  rw [hcache]
  exact Cache.wellFormed_bufferInit bufferEnd blocknr

omit [DecidableEq Task] in
theorem key_ne_zero {c : Cache n} {b : Fin n} {dev block : U32} (hdev : dev ≠ 0)
    (hkey : (c.bh b).key = (dev, block)) : (c.bh b).bDev ≠ 0 := by
  intro h0
  have hd := congrArg Prod.fst hkey
  simp only [BufferHead.key, h0] at hd
  exact hdev hd.symm

/-- The two structures of the cache in every state of every run, and what a look-up then
finds. -/
theorem cache_represented [NeZero n] {mode : AddMode} {s₀ s : System n Task}
    {as : List (Act n Task)} (h₀ : Booted s₀) (h : Run (System.Step mode) s₀ as s) :
    (∃ r : Cycle (Fin n), Ring s.mem.cache.nextFree s.mem.cache.prevFree r ∧ ∀ b, b ∈ r) ∧
    (∃ chain : Fin NR_HASH → List (Fin n),
      (∀ k, DChain s.mem.cache.nextHash s.mem.cache.prevHash (s.mem.cache.hashTable k)
        (chain k)) ∧
      ∀ k b, b ∈ chain k ↔ (s.mem.cache.bh b).bDev ≠ 0 ∧ (s.mem.cache.bh b).bucket = k) ∧
    (∀ dev block, dev ≠ 0 → ∃ r, s.mem.cache.findBuffer dev block = some r ∧
      (∀ b, r = some b → (s.mem.cache.bh b).key = (dev, block)) ∧
      (r = none ↔ ¬ ∃ b, (s.mem.cache.bh b).key = (dev, block))) ∧
    ∀ block, s.mem.cache.findBuffer 0 block = some none := by
  have hwf := wellFormed_run h₀ h
  obtain ⟨chain, hchain⟩ := hwf.chains
  refine ⟨hwf.ring, ⟨chain, hchain.linked, fun k b => ?_⟩, fun dev block hdev => ?_,
    fun block => ?_⟩
  · rw [hchain.mem]
    simp
  · obtain ⟨r, hr⟩ := hwf.findBuffer_total dev block
    refine ⟨r, hr, fun b hb => (hwf.of_findBuffer (hb ▸ hr)).1, ?_⟩
    constructor
    · rintro rfl ⟨b, hb⟩
      exact hwf.of_findBuffer_none hr (key_ne_zero hdev hb) hb
    · intro hno
      cases r with
      | none => rfl
      | some b => exact absurd ⟨b, (hwf.of_findBuffer hr).1⟩ hno
  · obtain ⟨r, hr⟩ := hwf.findBuffer_total 0 block
    cases r with
    | none => exact hr
    | some b =>
      obtain ⟨hkey, hdev⟩ := hwf.of_findBuffer hr
      have hd := congrArg Prod.fst hkey
      simp only [BufferHead.key] at hd
      exact absurd (by simpa [BitVec.zeroExtend] using congrArg (BitVec.setWidth 16) hd) hdev

/-! ## Two blocks on one chain -/

namespace SharedChain

/-- The blocks 5 and 720 of the disk hash alike. -/
def acts : List (Act 3 (Fin 1)) :=
  .call 0 (.want ⟨.getblk, 0x301, 5⟩) :: List.replicate 7 (.step 0) ++
    .call 0 (.want ⟨.getblk, 0x301, 720⟩) :: List.replicate 7 (.step 0)

def start : System 3 (Fin 1) := boot 0x200000 fun _ => 0

def held : System 3 (Fin 1) := (replay (System.next .asWritten) start acts).getD start

theorem run : Run (System.Step .asWritten) start acts held := run_replay (by decide +kernel)

theorem key_first : (held.mem.cache.bh 0).key = (0x301, 5) := by decide +kernel

theorem hashTable : held.mem.cache.hashTable (Fs.hashfn 0x301 5) = some 1 := by decide +kernel

end SharedChain

/-- The block behind the head of its chain is found. -/
theorem cache_represented_shared_chain :
    SharedChain.held.mem.cache.hashTable (Fs.hashfn 0x301 5) = some 1 ∧
      ∃ b, SharedChain.held.mem.cache.findBuffer 0x301 5 = some (some b) ∧
        (SharedChain.held.mem.cache.bh b).key = (0x301, 5) := by
  obtain ⟨r, hr, hkey, hnone⟩ := (cache_represented (booted_boot 0x200000 fun _ => 0)
    SharedChain.run).2.2.1 0x301 5 (by decide)
  refine ⟨SharedChain.hashTable, ?_⟩
  cases r with
  | none => exact absurd ⟨0, SharedChain.key_first⟩ (hnone.mp rfl)
  | some b => exact ⟨b, hr, hkey b rfl⟩

/-! ## Device 0

A task gets the block 5 of device 0.  The buffer is then in the cache, with that key, and
no look-up finds it. -/

namespace DeviceZero

def acts : List (Act 1 (Fin 1)) :=
  .call 0 (.want ⟨.getblk, 0, 5⟩) :: List.replicate 7 (.step 0)

def start : System 1 (Fin 1) := boot 0x200000 fun _ => 0

def held : System 1 (Fin 1) := (replay (System.next .asWritten) start acts).getD start

theorem run : Run (System.Step .asWritten) start acts held :=
  run_replay (by decide +kernel)

end DeviceZero

theorem findBuffer_misses_device_zero :
    ¬ ∀ (s₀ s : System 1 (Fin 1)) (as : List (Act 1 (Fin 1))), Booted s₀ →
      Run (Guarded (fun _ a => ∀ t w, a = .call t (.want w) → w.dev.toNat ≤ 65535)
        (System.Step .asWritten)) s₀ as s →
      ∀ dev block, dev.toNat ≤ 65535 →
        ((∃ b, s.mem.cache.findBuffer dev block = some (some b)) ↔
          ∃ b, (s.mem.cache.bh b).key = (dev, block)) := by
  intro h
  have hrun : Run (Guarded (fun _ a => ∀ t w, a = .call t (.want w) → w.dev.toNat ≤ 65535)
      (System.Step .asWritten)) DeviceZero.start DeviceZero.acts DeviceZero.held := by
    apply DeviceZero.run.guard
    intro a ha t w e
    rcases List.mem_cons.mp ha with rfl | hstep
    · cases e
      decide
    · rw [List.eq_of_mem_replicate hstep] at e
      cases e
  have hkey : (DeviceZero.held.mem.cache.bh 0).key = (0, 5) := by decide +kernel
  have hfind : DeviceZero.held.mem.cache.findBuffer 0 5 = some none := by decide +kernel
  obtain ⟨b, hb⟩ := (h _ _ _ (booted_boot 0x200000 fun _ => 0) hrun 0 5 (by decide)).mpr
    ⟨0, hkey⟩
  rw [hfind] at hb
  cases hb

end Io
end CherryOS
