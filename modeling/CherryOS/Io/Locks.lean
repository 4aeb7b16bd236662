import CherryOS.Io.Queues
import CherryOS.Io.Unique
import CherryOS.Lib.Ledger

/-!
# Who holds the lock of a buffer

`b_lock` is taken in `make_request` and released in the interrupt.  In between its owner
is the task that looks for a slot, and then the slot it fills.  Each locked buffer has one
owner, so the buffer of a filled slot is locked, and since nobody claims a locked buffer
it keeps the block the slot was filled for.
-/

namespace CherryOS
namespace Io

open Kernel (U32)
open Fs (BufferHead Cache)
open Driver
open Lib

variable {n : Nat} {Task : Type} [DecidableEq Task] {mode : AddMode}

/-- The buffer a task has locked and not yet handed to a slot. -/
def Pc.locks : Pc n → Option (Fin n)
  | .findSlot _ _ b _ _ | .slotWait _ _ b _ | .fill _ _ b _ _ => some b
  | _ => none

def lockHolds (m : Mem n) (pc : Task → Pc n) : Slot ⊕ Task → Option (Fin n)
  | .inl r => if (m.dev.request r).idle then none else (m.dev.request r).bh
  | .inr t => (pc t).locks

def lockCount (m : Mem n) (b : Fin n) : Nat := (m.cache.bh b).bLock.toNat

def Locks (m : Mem n) (pc : Task → Pc n) : Prop :=
  Balanced (fun _ => True) (lockHolds m pc) (lockCount m)

/-- What the steps of a task do to locks and to the table. -/
theorem Flow.lock_cases {m m' : Mem n} {p : Pc n} {nx : Next n} (h : Flow mode m p m' nx)
    (hwf : m.cache.WellFormed) :
    ((∀ b, (m'.cache.bh b).bLock = (m.cache.bh b).bLock) ∧ m'.dev = m.dev ∧
      nx.pc.locks = p.locks) ∨
    (∃ caller rw b k left, p = .lockWait caller rw b k ∧ (m.cache.bh b).bLock = 0 ∧
      m' = (m.store b fun h => { h with bLock := 1 }) ∧
      nx.pc = .findSlot caller rw b k left) ∨
    ∃ caller rw b k req, p = .fill caller rw b k req ∧ m.request mode rw b k req = some m' ∧
      nx.pc = .rwDone caller b := by
  have hstore : ∀ b (f : BufferHead n → BufferHead n), (∀ h, (f h).bLock = h.bLock) → ∀ x,
      ((m.store b f).cache.bh x).bLock = (m.cache.bh x).bLock :=
    fun b f hf x => Mem.store_keeps (g := fun h => h.bLock) hf m b x
  cases h with
  | hit => exact Or.inl ⟨hstore _ _ fun _ => rfl, rfl, rfl⟩
  | lost => exact Or.inl ⟨hstore _ _ fun _ => rfl, rfl, rfl⟩
  | released => exact Or.inl ⟨hstore _ _ fun _ => rfl, rfl, rfl⟩
  | dropped => exact Or.inl ⟨hstore _ _ fun _ => rfl, rfl, rfl⟩
  | @claimed w b c _ hc =>
    obtain ⟨c', hc', hcl, _⟩ := hwf.claim b w.dev w.block
    rw [hc, Option.some.injEq] at hc'
    subst hc'
    refine Or.inl ⟨fun x => ?_, rfl, rfl⟩
    by_cases hx : x = b
    · subst hx
      exact hcl.self.bLock
    · exact (hcl.other x hx).bLock
  | lock hlock => exact Or.inr (Or.inl ⟨_, _, _, _, _, rfl, hlock, rfl, rfl⟩)
  | fill hreq => exact Or.inr (Or.inr ⟨_, _, _, _, _, rfl, hreq, rfl⟩)
  | _ => exact Or.inl ⟨fun _ => rfl, rfl, rfl⟩

/-- A slot's lock does not depend on what the tasks are doing, nor a task's lock on the
others. -/
theorem lockHolds_update {m m' : Mem n} {pc : Task → Pc n} {t : Task} {p : Pc n} (y : Task) :
    lockHolds m' (Function.update pc t p) (.inr y) =
      Function.update (lockHolds m pc) (.inr t) p.locks (.inr y) := by
  by_cases hy : y = t
  · subst hy
    rw [lockHolds, Function.update_self, Function.update_self]
  · rw [lockHolds, Function.update_of_ne hy, Function.update_of_ne (by simpa using hy), lockHolds]

theorem Locks.flow {m m' : Mem n} {pc : Task → Pc n} {t : Task} {nx : Next n}
    (h : Locks m pc) (hflow : Flow mode m (pc t) m' nx) (hwf : m.cache.WellFormed)
    (hvacant : Vacant m (pc t)) : Locks m' (Function.update pc t nx.pc) := by
  rcases hflow.lock_cases hwf with ⟨hlock, hdev, hlocks⟩ |
    ⟨caller, rw, b, k, left, hpc, hlock, rfl, hnx⟩ | ⟨caller, rw, b, k, req, hpc, hreq, hnx⟩
  · refine h.congr (fun b o _ => ?_) fun b _ => congrArg BitVec.toNat (hlock b)
    cases o with
    | inl r => rw [lockHolds, hdev, lockHolds]
    | inr x =>
      by_cases hx : x = t
      · subst hx
        rw [lockHolds, Function.update_self, hlocks, lockHolds]
      · rw [lockHolds, Function.update_of_ne hx, lockHolds]
  · have hcount : lockCount m b = 0 := congrArg BitVec.toNat hlock
    have htake := h.take (o := Sum.inr t) trivial hcount (by rw [lockHolds, hpc]; rfl)
    refine htake.congr (fun x o _ => ?_) fun x _ => ?_
    · cases o with
      | inl r =>
        rw [Function.update_of_ne (by simp)]
        rfl
      | inr y =>
        rw [lockHolds_update (m := m), hnx]
        rfl
    · rw [lockCount]
      by_cases hx : x = b
      · subst hx
        rw [Mem.store_self, Function.update_self]
        rfl
      · rw [Mem.store_other _ _ hx, Function.update_of_ne hx, lockCount]
  · rw [hpc] at hvacant
    have hspec := request_spec hreq
    have hmove := h.move (o := Sum.inr t) (q := Sum.inl req) (r := b) trivial
      (by rw [lockHolds, hpc]; rfl) (by rw [lockHolds]; exact if_pos hvacant)
    refine hmove.congr (fun x o _ => ?_) fun x _ => ?_
    · cases o with
      | inl r =>
        by_cases hr : r = req
        · subst hr
          have hfilled : (m'.dev.request r).idle = false := by
            rw [BlkRequest.idle, hspec.dev]
            exact slt_zeroExtend _
          rw [lockHolds, hfilled, hspec.bh, Function.update_self]
          rfl
        · have hbh := congrArg BlkRequest.bh (hspec.other r hr)
          have hne : (Sum.inl r : Slot ⊕ Task) ≠ Sum.inl req := by simpa using hr
          rw [Function.update_of_ne hne, Function.update_of_ne (by simp), lockHolds, lockHolds,
            BlkRequest.idle, hspec.other_dev hr, BlkRequest.idle]
          show (if _ then none else (m'.dev.request r).bh) = some x ↔ _
          rw [show (m'.dev.request r).bh = (m.dev.request r).bh from hbh]
      | inr y =>
        rw [Function.update_of_ne (by simp), lockHolds_update (m := m), hnx]
        rfl
    · rw [lockCount, request_cache hreq, Cache.store_bh]
      split <;> rfl

theorem Locks.complete {m m' : Mem n} {pc : Task → Pc n} {ok : Bool} {req : Slot} {b : Fin n}
    (h : Locks m pc) (hc : Completed m ok req m') (hfilled : (m.dev.request req).idle = false)
    (hb : (m.dev.request req).bh = some b) : Locks m' pc := by
  have hdrop := h.drop (o := Sum.inl req) (r := b) trivial (by rw [lockHolds, hfilled]; exact hb)
  refine hdrop.congr (fun x o _ => ?_) fun x _ => ?_
  · cases o with
    | inl r =>
      have hset : m'.dev.request r = if r = req then { m.dev.request r with dev := -1 }
          else m.dev.request r := by
        rw [hc.dev, BlkDev.retire_request]
      by_cases hr : r = req
      · subst hr
        rw [lockHolds, hset, if_pos rfl, idle_neg_one, Function.update_self]
        rfl
      · rw [lockHolds, hset, if_neg hr, Function.update_of_ne (by simpa using hr), lockHolds]
    | inr y =>
      rw [Function.update_of_ne (by simp)]
      rfl
  · rw [lockCount, hc.cache, hb]
    by_cases hx : x = b
    · subst hx
      rw [Cache.store_self, Function.update_self]
      rfl
    · rw [Cache.store_other _ hx, Function.update_of_ne hx]
      rfl

/-! ## Filled slots and their buffers -/

/-- A filled slot is for the block that its buffer still has. -/
def SlotOk (m : Mem n) : Prop :=
  ∀ r, (m.dev.request r).idle = false → ∃ b, (m.dev.request r).bh = some b ∧
    (m.dev.request r).dev = (m.cache.bh b).bDev.zeroExtend 32 ∧
    (m.dev.request r).sector = (m.cache.bh b).bBlocknr * 2

theorem SlotOk.congr {m m' : Mem n} (h : SlotOk m) (hdev : m'.dev = m.dev)
    (hs : m.cache.SameLinks m'.cache) : SlotOk m' := by
  intro r hr
  rw [hdev] at hr ⊢
  obtain ⟨b, hb, hd, hsec⟩ := h r hr
  exact ⟨b, hb, by rw [(hs.bh b).bDev, hd], by rw [(hs.bh b).bBlocknr, hsec]⟩

theorem SlotOk.request {m m' : Mem n} {rw : U32} {b : Fin n} {k : Major} {req : Slot}
    (h : SlotOk m) (hreq : m.request mode rw b k req = some m') : SlotOk m' := by
  have hspec := request_spec hreq
  have hkey : ∀ x, (m.cache.bh x).InPlace (m'.cache.bh x) := by
    intro x
    rw [request_cache hreq, Cache.store_bh]
    split <;> exact ⟨rfl, rfl, rfl, rfl, rfl, rfl⟩
  intro r hr
  by_cases hrr : r = req
  · subst hrr
    refine ⟨b, hspec.bh, ?_, ?_⟩
    · rw [hspec.dev, (hkey b).bDev]
    · rw [hspec.sector, (hkey b).bBlocknr]
  · have hbh := congrArg BlkRequest.bh (hspec.other r hrr)
    have hsector := congrArg BlkRequest.sector (hspec.other r hrr)
    rw [BlkRequest.idle, hspec.other_dev hrr] at hr
    obtain ⟨x, hx, hd, hsec⟩ := h r hr
    refine ⟨x, hbh.trans hx, ?_, ?_⟩
    · rw [hspec.other_dev hrr, hd, (hkey x).bDev]
    · rw [(hkey x).bBlocknr]
      exact hsector.trans hsec

theorem SlotOk.complete {m m' : Mem n} {ok : Bool} {req : Slot} (h : SlotOk m)
    (hc : Completed m ok req m') : SlotOk m' := by
  have hs := hc.unlocks.links
  intro r hr
  rw [hc.dev, BlkDev.retire_request] at hr ⊢
  by_cases hrr : r = req
  · rw [if_pos hrr, idle_neg_one] at hr
    cases hr
  · rw [if_neg hrr] at hr ⊢
    obtain ⟨b, hb, hd, hsec⟩ := h r hr
    exact ⟨b, hb, by rw [(hs.bh b).bDev, hd], by rw [(hs.bh b).bBlocknr, hsec]⟩

omit [DecidableEq Task] in
/-- The buffer of a filled slot is locked. -/
theorem Locks.slot_locked {m : Mem n} {pc : Task → Pc n} {r : Slot} {b : Fin n}
    (h : Locks m pc) (hr : (m.dev.request r).idle = false)
    (hb : (m.dev.request r).bh = some b) : (m.cache.bh b).bLock = 1 := by
  have hcount := h.count_of_holds (o := Sum.inl r) trivial (by rw [lockHolds, hr]; exact hb)
  exact BitVec.eq_of_toNat_eq hcount

/-- A claim takes a head that no slot is for. -/
theorem SlotOk.claim {m : Mem n} {c : Cache n} {b : Fin n} {dev block : U32} (h : SlotOk m)
    (hlocked : ∀ r x, (m.dev.request r).idle = false → (m.dev.request r).bh = some x →
      (m.cache.bh x).bLock = 1)
    (hfree : (m.cache.bh b).bLock = 0) (hcl : m.cache.Claimed b dev block c) :
    SlotOk { m with cache := c } := by
  intro r hr
  obtain ⟨x, hx, hd, hsec⟩ := h r hr
  have hxb : x ≠ b := by
    rintro rfl
    rw [hlocked r x hr hx] at hfree
    cases hfree
  exact ⟨x, hx, by rw [(hcl.other x hxb).bDev, hd], by rw [(hcl.other x hxb).bBlocknr, hsec]⟩

/-- A slot the driver completes is filled. -/
theorem idle_of_major {r : BlkRequest n} (h : MAJOR r.dev = .ofNat 32 BLK_DEV_NUM_HD.val) :
    r.idle = false := by
  rw [BlkRequest.idle, BitVec.ofNat_eq_ofNat, BitVec.slt_zero_eq_msb,
    BitVec.msb_eq_false_iff_two_mul_lt]
  have hn := congrArg BitVec.toNat h
  rw [MAJOR, BitVec.toNat_ushiftRight, Nat.shiftRight_eq_div_pow] at hn
  have h3 : (BitVec.ofNat 32 BLK_DEV_NUM_HD.val).toNat = 3 := by decide
  rw [h3] at hn
  omega

/-! ## The invariant -/

structure Sealed (s : System n Task) : Prop extends Safe s where
  vacant : ∀ t, Vacant s.mem (s.pc t)
  locks : Locks s.mem s.pc
  slot : SlotOk s.mem

omit [DecidableEq Task] in
theorem Sealed.slot_locked {s : System n Task} (h : Sealed s) {r : Slot} {b : Fin n}
    (hr : (s.mem.dev.request r).idle = false) (hb : (s.mem.dev.request r).bh = some b) :
    (s.mem.cache.bh b).bLock = 1 := h.locks.slot_locked hr hb

omit [DecidableEq Task] in
/-- The buffer of the request that completes. -/
theorem Sealed.completes {s : System n Task} (h : Sealed s) {m : Mem n} {ok : Bool} {req : Slot}
    (hc : Completed s.mem ok req m) :
    ∃ b, (s.mem.dev.request req).bh = some b ∧ (s.mem.cache.bh b).bLock = 1 ∧
      (s.mem.cache.bh b).bDev ≠ 0 := by
  have hfilled := idle_of_major hc.major
  obtain ⟨b, hb, hd, _⟩ := h.slot req hfilled
  refine ⟨b, hb, h.slot_locked hfilled hb, fun h0 => ?_⟩
  have hmajor := hc.major
  rw [hd, h0] at hmajor
  exact absurd hmajor (by decide)

theorem locks_step {s s' : System n Task} {a : Act n Task} (h : Sealed s)
    (hs : s.next mode a = some s') : Locks s'.mem s'.pc := by
  have hflag : ∀ b (f : BufferHead n → BufferHead n), (∀ h, (f h).bLock = h.bLock) →
      Locks (s.mem.store b f) s.pc := by
    intro b f hf
    refine h.locks.congr (fun x o _ => ?_) fun x _ => ?_
    · cases o <;> rfl
    · exact congrArg BitVec.toNat (Mem.store_keeps (g := fun h => h.bLock) hf s.mem b x)
  cases a with
  | call t op =>
    obtain ⟨_, hidle, rfl⟩ := System.call_eq hs
    refine h.locks.congr (fun x o _ => ?_) fun x _ => ?_
    · cases o with
      | inl r => rw [lockHolds, (System.call_cache s t op).2, lockHolds]
      | inr y =>
        rw [System.call_pc hidle]
        by_cases hy : y = t
        · subst hy
          rw [lockHolds, lockHolds, Function.update_self, hidle]
          cases op with
          | want w => rfl
          | brelse b => cases b <;> rfl
          | llRwBlock rw b => rfl
        · rw [lockHolds, lockHolds, Function.update_of_ne hy]
    · rw [lockCount, (System.call_cache s t op).1, lockCount]
  | go t =>
    obtain ⟨_, _, rfl⟩ := System.go_eq hs
    exact h.locks
  | step t =>
    obtain ⟨_, m, nx, hflow, rfl⟩ := System.step_flow hs
    rw [System.settle_mem, System.settle_pc]
    exact h.locks.flow hflow h.wellFormed (h.vacant t)
  | intr ok =>
    obtain ⟨m, hm, rfl⟩ := System.intr_eq hs
    obtain ⟨req, hc⟩ := complete_cases hm
    obtain ⟨b, hb, _, _⟩ := h.completes hc
    exact h.locks.complete hc (idle_of_major hc.major) hb
  | setDirt b v =>
    rw [System.setDirt_eq hs]
    exact hflag b _ fun _ => rfl
  | setUptodate b v =>
    rw [System.setUptodate_eq hs]
    exact hflag b _ fun _ => rfl

theorem slot_step {s s' : System n Task} {a : Act n Task} (h : Sealed s)
    (hs : s.next mode a = some s') : SlotOk s'.mem := by
  rcases System.step_sameLinks_or_claim hs with hsame | ⟨t, w, b, c, _, _, hpc, _, hc, hm⟩
  · cases a with
    | call t op =>
      obtain ⟨_, _, rfl⟩ := System.call_eq hs
      exact h.slot.congr (System.call_cache s t op).2 hsame
    | go t =>
      obtain ⟨_, _, rfl⟩ := System.go_eq hs
      exact h.slot
    | step t =>
      obtain ⟨_, m, nx, hflow, rfl⟩ := System.step_flow hs
      rw [System.settle_mem] at hsame ⊢
      rcases hflow.dev_cases with ⟨hdev, _, _⟩ | ⟨caller, rw, b, k, req, _, hreq⟩
      · exact h.slot.congr hdev hsame
      · exact h.slot.request hreq
    | intr ok =>
      obtain ⟨m, hm, rfl⟩ := System.intr_eq hs
      obtain ⟨req, hc⟩ := complete_cases hm
      exact h.slot.complete hc
    | setDirt b v =>
      rw [System.setDirt_eq hs] at hsame ⊢
      exact h.slot.congr rfl hsame
    | setUptodate b v =>
      rw [System.setUptodate_eq hs] at hsame ⊢
      exact h.slot.congr rfl hsame
  · obtain ⟨c', hc', hcl, _⟩ := h.wellFormed.claim b w.dev w.block
    rw [hc, Option.some.injEq] at hc'
    subst hc'
    have hready := h.ready t
    rw [hpc] at hready
    rw [hm]
    exact h.slot.claim (fun r x => h.slot_locked) hready.1 hcl

theorem sealed_step {s s' : System n Task} {a : Act n Task} (h : Sealed s)
    (hs : s.next mode a = some s') : Sealed s' :=
  ⟨safe_step h.toSafe hs, vacant_step h.alone h.vacant hs, locks_step h hs, slot_step h hs⟩

/-- Booted, with every slot idle and no reference with any caller. -/
structure Fresh [NeZero n] (s : System n Task) : Prop extends Booted s where
  slots : ∀ r, (s.mem.dev.request r).idle = true
  handed : ∀ b, s.mem.handed b = 0

omit [DecidableEq Task] in
theorem fresh_boot [NeZero n] (bufferEnd : U32) (blocknr : Fin n → U32) :
    Fresh (boot bufferEnd blocknr : System n Task) where
  toBooted := booted_boot bufferEnd blocknr
  slots _ := rfl
  handed _ := rfl

omit [DecidableEq Task] in
theorem sealed_start [NeZero n] {s : System n Task} (h : Fresh s) : Sealed s := by
  have hholds : ∀ o, lockHolds s.mem s.pc o = none := by
    intro o
    cases o with
    | inl r => rw [lockHolds, if_pos (h.slots r)]
    | inr t =>
      rw [lockHolds, h.idle t]
      rfl
  have hcount : ∀ b, lockCount s.mem b = 0 := by
    obtain ⟨bufferEnd, blocknr, hcache⟩ := h.cache
    intro b
    rw [lockCount, hcache]
    rfl
  refine ⟨safe_start h.toBooted, fun t => ?_, ⟨fun b o _ _ => ?_, fun b _ hne => ?_,
    fun b o o' _ ho => ?_⟩, fun r hr => ?_⟩
  · rw [h.idle t]
    trivial
  · rw [hholds]
    simp
  · exact absurd (hcount b) hne
  · rw [hholds] at ho
    cases ho
  · rw [h.slots r] at hr
    cases hr

theorem sealed_run [NeZero n] {s₀ s : System n Task} {as : List (Act n Task)} (h₀ : Fresh s₀)
    (h : Run (System.Step mode) s₀ as s) : Sealed s :=
  h.invariant (sealed_start h₀) fun _ _ _ ha hs => sealed_step ha hs

end Io
end CherryOS
