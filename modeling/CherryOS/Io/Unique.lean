import CherryOS.Io.Represented

/-!
# One buffer for each block

`getblk` looks the block up, and if it is not there chooses a head, which may take several
sleeps.  Whatever the others did in between, the last look-up and the claim are one step,
so no two buffers get the same block, and the head that is claimed is neither counted nor
locked.

What a task relies on while it runs is stated of its place alone, `Ready` and `Right`: no
other task moves before it sleeps, and an interrupt only unlocks.
-/

namespace CherryOS
namespace Io

open Kernel (U32)
open Fs (BufferHead Cache)
open Driver
open Lib

variable {n : Nat} {Task : Type} [DecidableEq Task] {mode : AddMode}

/-! ## What a running task relies on -/

/-- What may change under a running task: an interrupt takes locks away. -/
structure Unlocks (m m' : Mem n) : Prop where
  links : m.cache.SameLinks m'.cache
  bCount : ∀ b, (m'.cache.bh b).bCount = (m.cache.bh b).bCount
  bLock : ∀ b, (m.cache.bh b).bLock = 0 → (m'.cache.bh b).bLock = 0

theorem Completed.unlocks {m m' : Mem n} {ok : Bool} {req : Slot}
    (h : Completed m ok req m') : Unlocks m m' := by
  constructor
  · rw [h.cache]
    exact .store _ _ fun _ => ⟨rfl, rfl, rfl, rfl, rfl, rfl⟩
  · intro b
    rw [h.cache, Cache.store_bh]
    split <;> rfl
  · intro b hb
    rw [h.cache, Cache.store_bh]
    split
    · rfl
    · exact hb

/-- The head a task is about to claim is nobody's, and the head it got is unlocked. -/
def Ready (m : Mem n) : Pc n → Prop
  | .checkDirty _ b | .claim _ b => (m.cache.bh b).bLock = 0 ∧ (m.cache.bh b).bCount = 0
  | .gotBlk _ b => (m.cache.bh b).bLock = 0
  | _ => True

/-- The buffer a call is about to return is the one it was asked for. -/
def Right (m : Mem n) : Pc n → Prop
  | .gotBlk w b => (m.cache.bh b).key = w.key
  | .ret w (some b) => w.kind ≠ .bread → (m.cache.bh b).key = w.key
  | _ => True

/-- Only `bread` reads. -/
def Pc.Proper (p : Pc n) : Prop := ∀ w b, p.reading = some (w, b) → w.kind = .bread

theorem Flow.proper {m m' : Mem n} {p : Pc n} {nx : Next n} (h : Flow mode m p m' nx)
    (hp : p.Proper) : nx.pc.Proper := by
  have hnone : ∀ {q : Pc n}, q.reading = none → q.Proper := by
    intro q hq w b hwb
    rw [hq] at hwb
    cases hwb
  cases h with
  | invalid hk =>
    intro w b hwb
    cases hwb
    exact hk
  | _ => first | exact hnone rfl | exact hp

theorem Flow.ready {m m' : Mem n} {p : Pc n} {nx : Next n} (h : Flow mode m p m' nx)
    (hwf : m.cache.WellFormed) (hp : Ready m p) : Ready m' nx.pc := by
  cases h with
  | locked => exact hp
  | free hlock hcount => exact ⟨hlock, hcount⟩
  | clean => exact hp
  | foundBlk hlock _ _ => exact hlock
  | claimed hnone hc =>
    obtain ⟨c', hc', hcl, _⟩ := hwf.claim _ _ _
    rw [hc, Option.some.injEq] at hc'
    subst hc'
    exact hcl.self.bLock.trans hp.1
  | _ => trivial

/-- The device of a call fits the field it is stored in. -/
def Want.Narrow (w : Want) : Prop := w.dev.toNat ≤ 65535

theorem Want.Narrow.width {w : Want} (h : w.Narrow) : (w.dev.setWidth 16).zeroExtend 32 = w.dev := by
  apply BitVec.eq_of_toNat_eq
  rw [BitVec.zeroExtend, BitVec.toNat_setWidth, BitVec.toNat_setWidth]
  unfold Want.Narrow at h
  omega

theorem Want.Narrow.claimed {c c' : Cache n} {b : Fin n} {w : Want} (hw : w.Narrow)
    (hcl : c.Claimed b w.dev w.block c') : (c'.bh b).key = w.key := by
  rw [hcl.self.key]
  show ((w.dev.setWidth 16).zeroExtend 32, w.block) = (w.dev, w.block)
  rw [hw.width]

theorem Flow.right {m m' : Mem n} {p : Pc n} {nx : Next n} (h : Flow mode m p m' nx)
    (hwf : m.cache.WellFormed) (hwant : ∀ w, p.want = some w → w.Narrow) (hprop : p.Proper)
    (hp : Right m p) : Right m' nx.pc := by
  cases h with
  | locked => exact hp
  | found _ hkey _ => exact fun _ => hkey
  | foundBlk _ hkey _ => exact hkey
  | @claimed w b c hnone hc =>
    obtain ⟨c', hc', hcl, _⟩ := hwf.claim b w.dev w.block
    rw [hc, Option.some.injEq] at hc'
    subst hc'
    exact (hwant w rfl).claimed hcl
  | valid => exact fun _ => hp
  | readOk => exact fun hk => absurd (hprop _ _ rfl) hk
  | _ => trivial

/-! ## The invariant -/

/-- Two heads with a device have different keys. -/
def Distinct (c : Cache n) : Prop :=
  ∀ b b', (c.bh b).bDev ≠ 0 → (c.bh b).key = (c.bh b').key → b = b'

theorem Distinct.congr {c c' : Cache n} (h : Distinct c) (hs : c.SameLinks c') :
    Distinct c' := by
  intro b b' hdev hkey
  rw [(hs.bh b).bDev] at hdev
  rw [(hs.bh b).key, (hs.bh b').key] at hkey
  exact h b b' hdev hkey

/-- A block that no look-up finds gets its first buffer. -/
theorem Distinct.claim {c c' : Cache n} {b : Fin n} {w : Want} (h : Distinct c)
    (hwf : c.WellFormed) (hw : w.Narrow) (hnone : c.findBuffer w.dev w.block = some none)
    (hcl : c.Claimed b w.dev w.block c') : Distinct c' := by
  have hkey : (c'.bh b).key = (w.dev, w.block) := hw.claimed hcl
  have hnew : ∀ x, x ≠ b → (c'.bh x).bDev ≠ 0 → (c'.bh x).key ≠ (c'.bh b).key := by
    intro x hx hdev
    rw [hkey, (hcl.other x hx).key]
    rw [(hcl.other x hx).bDev] at hdev
    exact hwf.of_findBuffer_none hnone hdev
  intro x y hdev hxy
  by_cases hx : x = b
  · subst hx
    by_contra hne
    refine hnew y (Ne.symm hne) ?_ hxy.symm
    intro h0
    have hd := congrArg Prod.fst hxy
    simp only [BufferHead.key, h0] at hd
    exact hdev (by simpa [BitVec.zeroExtend] using congrArg (BitVec.setWidth 16) hd)
  · by_cases hy : y = b
    · subst hy
      exact absurd hxy (hnew x hx hdev)
    · rw [(hcl.other x hx).bDev] at hdev
      rw [(hcl.other x hx).key, (hcl.other y hy).key] at hxy
      exact h x y hdev hxy

/-- What holds whatever the calls ask for. -/
structure Safe (s : System n Task) : Prop where
  wellFormed : s.mem.cache.WellFormed
  alone : s.Alone
  ready : ∀ t, Ready s.mem (s.pc t)
  proper : ∀ t, (s.pc t).Proper

theorem ready_of_rest {m : Mem n} {p : Pc n} (h : p = .idle ∨ p.waits = true) : Ready m p := by
  rcases h with rfl | h
  · trivial
  · cases p <;> trivial

theorem Ready.unlock {m m' : Mem n} {p : Pc n} (h : Ready m p) (hu : Unlocks m m') :
    Ready m' p := by
  cases p with
  | checkDirty w b => exact ⟨hu.bLock b h.1, (hu.bCount b).trans h.2⟩
  | claim w b => exact ⟨hu.bLock b h.1, (hu.bCount b).trans h.2⟩
  | gotBlk w b => exact hu.bLock b h
  | _ => trivial

theorem safe_step {s s' : System n Task} {a : Act n Task} (h : Safe s)
    (hs : s.next mode a = some s') : Safe s' := by
  refine ⟨wellFormed_step h.wellFormed hs, System.alone_step h.alone hs, fun t => ?_,
    fun t => ?_⟩
  · rcases System.pc_cases h.alone hs t with ⟨nx, _, hflow, hpc⟩ | ⟨op, _, _, hpc⟩ |
      ⟨hpc, hrest | ⟨ok, _, hm⟩⟩ <;> rw [hpc]
    · exact hflow.ready h.wellFormed (h.ready t)
    · cases op with
      | want w => trivial
      | brelse b => cases b <;> trivial
      | llRwBlock rw b => trivial
    · exact ready_of_rest hrest
    · obtain ⟨req, hreq⟩ := complete_cases hm
      exact (h.ready t).unlock hreq.unlocks
  · rcases System.pc_cases h.alone hs t with ⟨nx, _, hflow, hpc⟩ | ⟨op, _, _, hpc⟩ | ⟨hpc, _⟩ <;>
      rw [hpc]
    · exact hflow.proper (h.proper t)
    · intro w b hwb
      cases op with
      | want w => cases hwb
      | brelse b => cases b <;> cases hwb
      | llRwBlock rw b => cases hwb
    · exact h.proper t

omit [DecidableEq Task] in
theorem safe_start [NeZero n] {s : System n Task} (h : Booted s) : Safe s := by
  obtain ⟨bufferEnd, blocknr, hcache⟩ := h.cache
  refine ⟨?_, h.toStart.alone, fun t => ?_, fun t => ?_⟩
  · rw [hcache]
    exact Cache.wellFormed_bufferInit bufferEnd blocknr
  · exact ready_of_rest (Or.inl (h.idle t))
  · rw [h.idle t]
    intro w b hwb
    cases hwb

theorem safe_run [NeZero n] {s₀ s : System n Task} {as : List (Act n Task)} (h₀ : Booted s₀)
    (h : Run (System.Step mode) s₀ as s) : Safe s :=
  h.invariant (safe_start h₀) fun _ _ _ ha hs => safe_step ha hs

/-- What holds as long as every call names a device that a head can store. -/
structure Keyed (s : System n Task) : Prop extends Safe s where
  narrow : ∀ t w, (s.pc t).want = some w → w.Narrow
  distinct : Distinct s.mem.cache
  right : ∀ t, Right s.mem (s.pc t)

/-- The calls for a block name a device number that fits 16 bits. -/
def NarrowCall : Act n Task → Prop
  | .call _ (.want w) => w.Narrow
  | _ => True

instance (a : Act n Task) : Decidable (NarrowCall a) :=
  match a with
  | .call _ (.want w) => inferInstanceAs (Decidable (w.dev.toNat ≤ 65535))
  | .call _ (.brelse _) | .call _ (.llRwBlock ..) | .go _ | .step _ | .intr _ | .setDirt ..
  | .setUptodate .. => isTrue trivial

theorem right_of_rest {m : Mem n} {p : Pc n} (h : p = .idle ∨ p.waits = true) : Right m p := by
  rcases h with rfl | h
  · trivial
  · cases p <;> trivial

theorem Right.unlock {m m' : Mem n} {p : Pc n} (h : Right m p) (hu : Unlocks m m') :
    Right m' p := by
  cases p with
  | gotBlk w b => exact (hu.links.bh b).key.trans h
  | ret w bh =>
    cases bh with
    | none => trivial
    | some b => exact fun hk => (hu.links.bh b).key.trans (h hk)
  | _ => trivial

theorem keyed_step {s s' : System n Task} {a : Act n Task} (h : Keyed s)
    (hs : s.next mode a = some s') (hok : NarrowCall a) : Keyed s' := by
  refine ⟨safe_step h.toSafe hs, fun t w hw => ?_, ?_, fun t => ?_⟩
  · rcases System.pc_cases h.alone hs t with ⟨nx, _, hflow, hpc⟩ | ⟨op, rfl, _, hpc⟩ | ⟨hpc, _⟩ <;>
      rw [hpc] at hw
    · exact h.narrow t w (hflow.want_eq hw)
    · cases op with
      | want v =>
        cases hw
        exact hok
      | brelse b => cases b <;> cases hw
      | llRwBlock rw b => cases hw
    · exact h.narrow t w hw
  · rcases System.step_sameLinks_or_claim hs with hsame | ⟨t, w, b, c, _, _, hpc, hnone, hc, hm⟩
    · exact h.distinct.congr hsame
    · obtain ⟨c', hc', hcl, _⟩ := h.wellFormed.claim b w.dev w.block
      rw [hc, Option.some.injEq] at hc'
      subst hc'
      rw [hm]
      exact h.distinct.claim h.wellFormed (h.narrow t w (by rw [hpc]; rfl)) hnone hcl
  · rcases System.pc_cases h.alone hs t with ⟨nx, _, hflow, hpc⟩ | ⟨op, _, _, hpc⟩ |
      ⟨hpc, hrest | ⟨ok, _, hm⟩⟩ <;> rw [hpc]
    · exact hflow.right h.wellFormed (h.narrow t) (h.proper t) (h.right t)
    · cases op with
      | want w => trivial
      | brelse b => cases b <;> trivial
      | llRwBlock rw b => trivial
    · exact right_of_rest hrest
    · obtain ⟨req, hreq⟩ := complete_cases hm
      exact (h.right t).unlock hreq.unlocks

omit [DecidableEq Task] in
theorem keyed_start [NeZero n] {s : System n Task} (h : Booted s) : Keyed s := by
  refine ⟨safe_start h, fun t w hw => ?_, ?_, fun t => right_of_rest (Or.inl (h.idle t))⟩
  · rw [h.idle t] at hw
    cases hw
  · obtain ⟨bufferEnd, blocknr, hcache⟩ := h.cache
    rw [hcache]
    intro b b' hdev
    exact absurd rfl hdev

theorem keyed_run [NeZero n] {s₀ s : System n Task} {as : List (Act n Task)} (h₀ : Booted s₀)
    (h : Run (Guarded (fun _ a => NarrowCall a) (System.Step mode)) s₀ as s) : Keyed s :=
  h.invariant (keyed_start h₀) fun _ _ _ ha hs => keyed_step ha hs.2 hs.1

/-! ## The result -/

/-- A head that is counted or locked keeps its block. -/
theorem Safe.step_keeps_key {s s' : System n Task} {a : Act n Task} (h : Safe s)
    (hs : s.next mode a = some s') {b : Fin n}
    (hb : (s.mem.cache.bh b).bCount ≠ 0 ∨ (s.mem.cache.bh b).bLock ≠ 0) :
    (s'.mem.cache.bh b).bDev = (s.mem.cache.bh b).bDev ∧
      (s'.mem.cache.bh b).bBlocknr = (s.mem.cache.bh b).bBlocknr := by
  rcases System.step_sameLinks_or_claim hs with hsame | ⟨t, w, x, c, _, _, hpc, _, hc, hm⟩
  · exact ⟨(hsame.bh b).bDev, (hsame.bh b).bBlocknr⟩
  · obtain ⟨c', hc', hcl, _⟩ := h.wellFormed.claim x w.dev w.block
    rw [hc, Option.some.injEq] at hc'
    subst hc'
    have hready := h.ready t
    rw [hpc] at hready
    have hbx : b ≠ x := by
      rintro rfl
      exact hb.elim (fun hn => hn hready.2) fun hn => hn hready.1
    rw [hm]
    exact ⟨(hcl.other b hbx).bDev, (hcl.other b hbx).bBlocknr⟩

/-- At every moment a block has at most one buffer, a buffer in use keeps its block, and
`getblk` and `get_hash_table` return the buffer of the block they were asked for. -/
theorem one_buffer_for_each_block [NeZero n] {s₀ s : System n Task} {as : List (Act n Task)}
    (h₀ : Booted s₀)
    (h : Run (Guarded (fun _ a => NarrowCall a) (System.Step mode)) s₀ as s) :
    (∀ b b', (s.mem.cache.bh b).bDev ≠ 0 →
      (s.mem.cache.bh b).key = (s.mem.cache.bh b').key → b = b') ∧
    (∀ a s', System.Step mode s a s' → ∀ b,
      (s.mem.cache.bh b).bCount ≠ 0 ∨ (s.mem.cache.bh b).bLock ≠ 0 →
      (s'.mem.cache.bh b).bDev = (s.mem.cache.bh b).bDev ∧
        (s'.mem.cache.bh b).bBlocknr = (s.mem.cache.bh b).bBlocknr) ∧
    (∀ t w b, s.pc t = .gotBlk w b → (s.mem.cache.bh b).key = (w.dev, w.block)) ∧
    ∀ t w b, s.pc t = .ret w (some b) → w.kind ≠ .bread →
      (s.mem.cache.bh b).key = (w.dev, w.block) := by
  have hk := keyed_run h₀ h
  refine ⟨hk.distinct, fun a s' hs b hb => hk.step_keeps_key hs hb, fun t w b hpc => ?_,
    fun t w b hpc hkind => ?_⟩
  · have hright := hk.right t
    rw [hpc] at hright
    exact hright
  · have hright := hk.right t
    rw [hpc] at hright
    exact hright hkind

/-! ## Two tasks after one block

Task 0 has the only buffer and reads into it.  Task 1 asks for the same block and sleeps on
the lock, and after the disk is done it gets the same buffer. -/

namespace SameBlock

def want (k : Kind) : Want := ⟨k, 0x301, 5⟩

def acts : List (Act 1 (Fin 2)) :=
  [.call 0 (.want (want .bread))] ++ List.replicate 12 (.step 0) ++
  [.call 1 (.want (want .getblk)), .step 1, .step 1, .intr true, .go 1, .step 1]

def start : System 1 (Fin 2) := boot 0x200000 fun _ => 0

def both : System 1 (Fin 2) := (replay (System.next .linking) start acts).getD start

theorem run : Run (Guarded (fun _ a => NarrowCall a) (System.Step .linking)) start acts both :=
  (run_replay (by decide +kernel)).guard (by decide)

end SameBlock

theorem one_buffer_for_each_block_sameBlock :
    SameBlock.both.pc 1 = .gotBlk (SameBlock.want .getblk) 0 ∧
      (SameBlock.both.mem.cache.bh 0).key = (0x301, 5) := by
  have hpc : SameBlock.both.pc 1 = .gotBlk (SameBlock.want .getblk) 0 := by decide +kernel
  exact ⟨hpc, (one_buffer_for_each_block (booted_boot 0x200000 fun _ => 0)
    SameBlock.run).2.2.1 1 _ 0 hpc⟩

end Io
end CherryOS
