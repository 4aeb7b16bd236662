import CherryOS.Io.Tasks

/-!
# What one step does

`Flow` lists the steps of a task, one constructor for each way from a place to the next,
with what the step has read and what it leaves.  Every invariant of the system is proved
from it: the constructors that lead to a place say what holds there, and the few that
change the memory say how.
-/

namespace CherryOS
namespace Io

open Kernel (U32)
open Fs (BufferHead Cache badness)
open Driver
open Lib

variable {n : Nat}

/-- The head the task would have to see unlocked to go on. -/
def Pc.awaits : Pc n → Option (Fin n)
  | .hashWait _ b | .victimWait _ b | .lockWait _ _ b _ | .readWait _ b | .brelseWait _ b =>
    some b
  | _ => none

/-- The read that `bread` waits for or is about to give up. -/
def Pc.reading : Pc n → Option (Want × Fin n)
  | .rwEntry caller _ b | .lockWait caller _ b _ | .findSlot caller _ b _ _
  | .slotWait caller _ b _ | .fill caller _ b _ _ | .rwDone caller b | .brelseWait caller b =>
    caller.map fun w => (w, b)
  | .readWait w b => some (w, b)
  | _ => none

/-- What the call of the task is after. -/
def Pc.want : Pc n → Option Want
  | .lookup w | .hashWait w _ | .scan w _ _ | .noBuffer w | .victimWait w _ | .checkDirty w _
  | .claim w _ | .gotBlk w _ | .readWait w _ | .ret w _ => some w
  | .rwEntry caller .. | .lockWait caller .. | .findSlot caller .. | .slotWait caller ..
  | .fill caller .. | .rwDone caller _ | .brelseWait caller _ => caller
  | .idle | .panicked => none

/-- One step of a task at a place: the memory and the place after it. -/
inductive Flow (mode : AddMode) (m : Mem n) : Pc n → Mem n → Next n → Prop
  | locked {p : Pc n} {b : Fin n} :
      p.awaits = some b → (m.cache.bh b).bLock ≠ 0 → Flow mode m p m (.yield p)
  | miss {w : Want} : w.kind = .getHashTable →
      m.cache.findBuffer w.dev w.block = some none →
      Flow mode m (.lookup w) m (.go (.ret w none))
  | search {w : Want} : w.kind ≠ .getHashTable →
      m.cache.findBuffer w.dev w.block = some none →
      Flow mode m (.lookup w) m (.go (.scan w m.cache.freeList none))
  | hit {w : Want} {b : Fin n} : m.cache.findBuffer w.dev w.block = some (some b) →
      Flow mode m (.lookup w) (m.hold b) (.go (.hashWait w b))
  | found {w : Want} {b : Fin n} : (m.cache.bh b).bLock = 0 →
      (m.cache.bh b).key = w.key → w.kind = .getHashTable →
      Flow mode m (.hashWait w b) (m.handOut b) (.go (.ret w (some b)))
  | foundBlk {w : Want} {b : Fin n} : (m.cache.bh b).bLock = 0 →
      (m.cache.bh b).key = w.key → w.kind ≠ .getHashTable →
      Flow mode m (.hashWait w b) m (.go (.gotBlk w b))
  | lost {w : Want} {b : Fin n} : (m.cache.bh b).bLock = 0 → (m.cache.bh b).key ≠ w.key →
      Flow mode m (.hashWait w b) (m.unhold b) (.go (.lookup w))
  | scanNext {w : Want} {tmp x : Fin n} {bh bh' : Option (Fin n)} :
      Flow mode m (.scan w tmp bh) m (.go (.scan w x bh'))
  | scanNone {w : Want} {tmp : Fin n} {bh : Option (Fin n)} :
      Flow mode m (.scan w tmp bh) m (.yield (.noBuffer w))
  | scanDone {w : Want} {tmp b : Fin n} {bh : Option (Fin n)} :
      Flow mode m (.scan w tmp bh) m (.go (.victimWait w b))
  | again {w : Want} : Flow mode m (.noBuffer w) m (.go (.lookup w))
  | taken {w : Want} {b : Fin n} : Flow mode m (.victimWait w b) m (.go (.lookup w))
  | free {w : Want} {b : Fin n} : (m.cache.bh b).bLock = 0 → (m.cache.bh b).bCount = 0 →
      Flow mode m (.victimWait w b) m (.go (.checkDirty w b))
  | dirty {w : Want} {b : Fin n} : Flow mode m (.checkDirty w b) m (.go (.victimWait w b))
  | clean {w : Want} {b : Fin n} : Flow mode m (.checkDirty w b) m (.go (.claim w b))
  | appeared {w : Want} {b : Fin n} : Flow mode m (.claim w b) m (.go (.lookup w))
  | corrupted {w : Want} {b : Fin n} : Flow mode m (.claim w b) m (.go .panicked)
  | claimed {w : Want} {b : Fin n} {c : Cache n} :
      m.cache.findBuffer w.dev w.block = some none →
      m.cache.claim b w.dev w.block = some c →
      Flow mode m (.claim w b) { m with cache := c } (.go (.gotBlk w b))
  | valid {w : Want} {b : Fin n} : (w.kind = .bread → (m.cache.bh b).bUptodate ≠ 0) →
      Flow mode m (.gotBlk w b) (m.handOut b) (.go (.ret w (some b)))
  | invalid {w : Want} {b : Fin n} : w.kind = .bread →
      Flow mode m (.gotBlk w b) m (.go (.rwEntry (some w) BLK_READ b))
  | badCommand {caller : Option Want} {rw : U32} {b : Fin n} : rw ≠ BLK_READ →
      Flow mode m (.rwEntry caller rw b) m (.go .panicked)
  | enter {caller : Option Want} {rw : U32} {b : Fin n} {major : Major} :
      MAJOR ((m.cache.bh b).bDev.zeroExtend 32) = .ofNat 32 major.val →
      Flow mode m (.rwEntry caller rw b) m (.go (.lockWait caller rw b major))
  | noDevice {caller : Option Want} {rw : U32} {b : Fin n} :
      Flow mode m (.rwEntry caller rw b) m (.go (.rwDone caller b))
  | noNeed {caller : Option Want} {rw : U32} {b : Fin n} {major : Major} :
      Flow mode m (.lockWait caller rw b major) m (.go (.rwDone caller b))
  | lock {caller : Option Want} {rw : U32} {b : Fin n} {major : Major} :
      (m.cache.bh b).bLock = 0 →
      Flow mode m (.lockWait caller rw b major) (m.store b fun h => { h with bLock := 1 })
        (.go (.findSlot caller rw b major NUMBER_OF_REQUESTS))
  | noSlot {caller : Option Want} {rw : U32} {b : Fin n} {major : Major} :
      Flow mode m (.findSlot caller rw b major 0) m (.yield (.slotWait caller rw b major))
  | busy {caller : Option Want} {rw : U32} {b : Fin n} {major : Major} {left : Nat} :
      Flow mode m (.findSlot caller rw b major (left + 1)) m
        (.go (.findSlot caller rw b major left))
  | slot {caller : Option Want} {rw : U32} {b : Fin n} {major : Major} {left : Nat}
      {req : Slot} : (m.dev.request req).idle = true →
      Flow mode m (.findSlot caller rw b major left) m (.go (.fill caller rw b major req))
  | retry {caller : Option Want} {rw : U32} {b : Fin n} {major : Major} :
      Flow mode m (.slotWait caller rw b major) m
        (.go (.findSlot caller rw b major NUMBER_OF_REQUESTS))
  | fill {caller : Option Want} {rw : U32} {b : Fin n} {major : Major} {req : Slot}
      {m' : Mem n} : m.request mode rw b major req = some m' →
      Flow mode m (.fill caller rw b major req) m' (.go (.rwDone caller b))
  | written {b : Fin n} : Flow mode m (.rwDone none b) m (.yield .idle)
  | reading {w : Want} {b : Fin n} : Flow mode m (.rwDone (some w) b) m (.go (.readWait w b))
  | readOk {w : Want} {b : Fin n} : (m.cache.bh b).bLock = 0 → (m.cache.bh b).bUptodate ≠ 0 →
      Flow mode m (.readWait w b) (m.handOut b) (.go (.ret w (some b)))
  | readFailed {w : Want} {b : Fin n} :
      Flow mode m (.readWait w b) m (.go (.brelseWait (some w) b))
  | freeing {caller : Option Want} {b : Fin n} : (m.cache.bh b).bCount = 0 →
      Flow mode m (.brelseWait caller b) m (.go .panicked)
  | released {b : Fin n} : (m.cache.bh b).bCount ≠ 0 →
      Flow mode m (.brelseWait none b) (m.unhold b) (.yield .idle)
  | dropped {w : Want} {b : Fin n} : (m.cache.bh b).bCount ≠ 0 →
      Flow mode m (.brelseWait (some w) b) (m.unhold b) (.go (.ret w none))
  | ended {w : Want} {bh : Option (Fin n)} : Flow mode m (.ret w bh) m (.yield .idle)

variable {mode : AddMode} {m m' : Mem n} {p : Pc n} {nx : Next n}

/-- After a wait the head is unlocked; before it the task may sleep. -/
theorem afterWait_cases {b : Fin n} {k : Option (Mem n × Next n)} (hp : p.awaits = some b)
    (h : afterWait m b p k = some (m', nx)) :
    Flow mode m p m' nx ∨ (m.cache.bh b).bLock = 0 ∧ k = some (m', nx) := by
  rw [afterWait] at h
  split at h
  · rename_i hlock
    cases h
    exact Or.inl (.locked hp hlock)
  · rename_i hlock
    exact Or.inr ⟨not_not.mp hlock, h⟩

theorem exec_flow (h : exec mode m p = some (m', nx)) : Flow mode m p m' nx := by
  cases p with
  | idle => cases h
  | panicked => cases h
  | lookup w =>
    obtain ⟨r, hr, h⟩ := Option.map_eq_some_iff.mp h
    cases r with
    | none =>
      by_cases hk : w.kind = .getHashTable
      · simp only [hk, if_true] at h
        cases h
        exact .miss hk hr
      · simp only [hk, if_false] at h
        cases h
        exact .search hk hr
    | some b =>
      cases h
      exact .hit hr
  | hashWait w b =>
    rcases afterWait_cases rfl h with hflow | ⟨hlock, h⟩
    · exact hflow
    · split at h
      · rename_i hkey
        split at h
        · rename_i hk
          cases h
          exact .found hlock hkey hk
        · rename_i hk
          cases h
          exact .foundBlk hlock hkey hk
      · rename_i hkey
        cases h
        exact .lost hlock hkey
  | scan w tmp bh =>
    have hchosen : ∀ o, (m, chosen w o) = (m', nx) → Flow mode m (.scan w tmp bh) m' nx := by
      intro o ho
      cases o with
      | none =>
        cases ho
        exact .scanNone
      | some b =>
        cases ho
        exact .scanDone
    simp only [exec] at h
    split at h
    · exact hchosen _ (Option.some.inj h)
    · obtain ⟨x, _, h⟩ := Option.map_eq_some_iff.mp h
      split at h
      · exact hchosen _ h
      · cases h
        exact .scanNext
  | noBuffer w =>
    cases h
    exact .again
  | victimWait w b =>
    rcases afterWait_cases rfl h with hflow | ⟨hlock, h⟩
    · exact hflow
    · split at h
      · cases h
        exact .taken
      · rename_i hcount
        cases h
        exact .free hlock (not_not.mp hcount)
  | checkDirty w b =>
    simp only [exec] at h
    split at h
    · cases h
      exact .dirty
    · cases h
      exact .clean
  | claim w b =>
    obtain ⟨r, hr, h⟩ := Option.map_eq_some_iff.mp h
    cases r with
    | some x =>
      cases h
      exact .appeared
    | none =>
      cases hc : m.cache.claim b w.dev w.block with
      | none =>
        simp only [hc] at h
        cases h
        exact .corrupted
      | some c =>
        simp only [hc] at h
        cases h
        exact .claimed hr hc
  | gotBlk w b =>
    simp only [exec] at h
    split at h
    · rename_i hinvalid
      cases h
      exact .invalid hinvalid.1
    · rename_i hvalid
      cases h
      exact .valid fun hk h0 => hvalid ⟨hk, h0⟩
  | rwEntry caller rw b =>
    simp only [exec] at h
    split at h
    · split at h
      · split at h
        · rename_i hbad
          cases h
          exact .badCommand hbad.1
        · cases h
          exact .enter (by rw [BitVec.ofNat_toNat, BitVec.setWidth_eq])
      · cases h
        exact .noDevice
    · cases h
      exact .noDevice
  | lockWait caller rw b major =>
    rcases afterWait_cases rfl h with hflow | ⟨hlock, h⟩
    · exact hflow
    · split at h
      · cases h
        exact .noNeed
      · cases h
        exact .lock hlock
  | findSlot caller rw b major left =>
    cases left with
    | zero =>
      cases h
      exact .noSlot
    | succ left =>
      simp only [exec] at h
      split at h
      · rename_i hidle
        cases h
        exact .slot hidle
      · cases h
        exact .busy
  | slotWait caller rw b major =>
    cases h
    exact .retry
  | fill caller rw b major req =>
    obtain ⟨m₁, hm₁, h⟩ := Option.map_eq_some_iff.mp h
    cases h
    exact .fill hm₁
  | rwDone caller b =>
    cases caller with
    | none =>
      cases h
      exact .written
    | some w =>
      cases h
      exact .reading
  | readWait w b =>
    rcases afterWait_cases rfl h with hflow | ⟨hlock, h⟩
    · exact hflow
    · split at h
      · rename_i hup
        cases h
        exact .readOk hlock hup
      · cases h
        exact .readFailed
  | brelseWait caller b =>
    rcases afterWait_cases rfl h with hflow | ⟨hlock, h⟩
    · exact hflow
    · split at h
      · rename_i hcount
        cases h
        exact .freeing hcount
      · rename_i hcount
        cases caller with
        | none =>
          cases h
          exact .released hcount
        | some w =>
          cases h
          exact .dropped hcount
  | ret w bh =>
    cases h
    exact .ended

/-! ## What a step leaves alone -/

namespace Flow

/-- A task that gives up the CPU is done or is at a place where it can be asleep. -/
theorem yields {p' : Pc n} (h : Flow mode m p m' (.yield p')) :
    p' = .idle ∨ p'.waits = true := by
  cases h with
  | locked hp _ =>
    cases p <;> first | exact Or.inr rfl | cases hp
  | scanNone => exact Or.inr rfl
  | noSlot => exact Or.inr rfl
  | written => exact Or.inl rfl
  | released => exact Or.inl rfl
  | ended => exact Or.inl rfl

/-- A call is after one thing from its start to its end. -/
theorem want_eq {w : Want} (h : Flow mode m p m' nx) (hw : nx.pc.want = some w) :
    p.want = some w := by
  cases h with
  | corrupted => cases hw
  | badCommand => cases hw
  | freeing => cases hw
  | written => cases hw
  | released => cases hw
  | ended => cases hw
  | _ => exact hw

end Flow

theorem Mem.store_self (m : Mem n) (b : Fin n) (f : BufferHead n → BufferHead n) :
    (m.store b f).cache.bh b = f (m.cache.bh b) := Cache.store_self ..

theorem Mem.store_other (m : Mem n) {b x : Fin n} (f : BufferHead n → BufferHead n)
    (hx : x ≠ b) : (m.store b f).cache.bh x = m.cache.bh x := Cache.store_other f hx

/-- A store keeps a field that it does not assign. -/
theorem Mem.store_keeps {β : Type*} {f : BufferHead n → BufferHead n} {g : BufferHead n → β}
    (hg : ∀ h, g (f h) = g h) (m : Mem n) (b x : Fin n) :
    g ((m.store b f).cache.bh x) = g (m.cache.bh x) :=
  Cache.store_keeps hg m.cache (some b) x

theorem sameLinks_store (m : Mem n) (b : Fin n) {f : BufferHead n → BufferHead n}
    (hf : ∀ h : BufferHead n, h.InPlace (f h)) : m.cache.SameLinks (m.store b f).cache :=
  .store _ _ hf

/-- `make_request` changes one flag of one head. -/
theorem request_cache {rw : U32} {b : Fin n} {major : Major} {req : Slot}
    (h : m.request mode rw b major req = some m') :
    m'.cache = m.cache.store (some b) fun h => { h with bDirt := 0 } := by
  obtain ⟨d, _, rfl⟩ := Option.map_eq_some_iff.mp h
  rfl

/-- The request `req` at the head of the disk's queue is completed. -/
structure Completed (m : Mem n) (ok : Bool) (req : Slot) (m' : Mem n) : Prop where
  head : m.dev.reqQ BLK_DEV_NUM_HD = some req
  major : MAJOR (m.dev.request req).dev = .ofNat 32 BLK_DEV_NUM_HD.val
  dev : m'.dev = m.dev.retire BLK_DEV_NUM_HD req
  cache : m'.cache = m.cache.store (m.dev.request req).bh fun h =>
    { h with bUptodate := if ok then 1 else 0, bLock := 0 }
  handed : m'.handed = m.handed
  last : m'.last = match (m.dev.request req).bh with
    | some b => Function.update m.last (m.cache.bh b).key (some ok)
    | none => m.last
  added : m'.added = m.added
  retired : m'.retired = Function.update m.retired BLK_DEV_NUM_HD
    (m.retired BLK_DEV_NUM_HD ++ [req])

theorem complete_cases {ok : Bool} (h : m.complete ok = some m') :
    ∃ req, Completed m ok req m' := by
  simp only [Mem.complete] at h
  split at h
  · cases h
  · rename_i req hreq
    split at h
    · cases h
    · rename_i hmajor
      obtain ⟨⟨d, c⟩, hdc, rfl⟩ := Option.map_eq_some_iff.mp h
      rw [BlkDev.endRequest, hreq, Option.map_some, Option.some.injEq] at hdc
      cases hdc
      exact ⟨req, hreq, not_not.mp hmajor, rfl, rfl, rfl, rfl, rfl, rfl⟩

/-- A step leaves the keys and the links of the heads alone, or it is a claim. -/
theorem Flow.sameLinks_or_claim (h : Flow mode m p m' nx) :
    m.cache.SameLinks m'.cache ∨
      ∃ w b c, p = .claim w b ∧ m.cache.findBuffer w.dev w.block = some none ∧
        m.cache.claim b w.dev w.block = some c ∧ m' = { m with cache := c } ∧
        nx = .go (.gotBlk w b) := by
  have hrefl : m.cache.SameLinks m.cache := .refl _
  have hflag : ∀ b (f : BufferHead n → BufferHead n), (∀ h : BufferHead n, h.InPlace (f h)) →
      m.cache.SameLinks (m.store b f).cache := fun b f hf => sameLinks_store m b hf
  cases h with
  | hit => exact Or.inl (hflag _ _ fun _ => ⟨rfl, rfl, rfl, rfl, rfl, rfl⟩)
  | lost => exact Or.inl (hflag _ _ fun _ => ⟨rfl, rfl, rfl, rfl, rfl, rfl⟩)
  | lock => exact Or.inl (hflag _ _ fun _ => ⟨rfl, rfl, rfl, rfl, rfl, rfl⟩)
  | released => exact Or.inl (hflag _ _ fun _ => ⟨rfl, rfl, rfl, rfl, rfl, rfl⟩)
  | dropped => exact Or.inl (hflag _ _ fun _ => ⟨rfl, rfl, rfl, rfl, rfl, rfl⟩)
  | fill hreq =>
    left
    rw [request_cache hreq]
    exact .store _ _ fun _ => ⟨rfl, rfl, rfl, rfl, rfl, rfl⟩
  | claimed hnone hc => exact Or.inr ⟨_, _, _, rfl, hnone, hc, rfl, rfl⟩
  | _ => exact Or.inl hrefl

/-- Only `make_request` changes the table. -/
theorem Flow.dev_cases (h : Flow mode m p m' nx) :
    (m'.dev = m.dev ∧ m'.added = m.added ∧ m'.retired = m.retired) ∨
      ∃ caller rw b major req, p = .fill caller rw b major req ∧
        m.request mode rw b major req = some m' := by
  cases h with
  | fill hreq => exact Or.inr ⟨_, _, _, _, _, rfl, hreq⟩
  | _ => exact Or.inl ⟨rfl, rfl, rfl⟩

/-! ## The system -/

variable {Task : Type} [DecidableEq Task]

namespace System

variable {s s' : System n Task} {t : Task} {a : Act n Task}

@[simp] theorem settle_mem (s : System n Task) (t : Task) (m : Mem n) (nx : Next n) :
    (s.settle t m nx).mem = m := by
  cases nx <;> rfl

@[simp] theorem settle_pc (s : System n Task) (t : Task) (m : Mem n) (nx : Next n) :
    (s.settle t m nx).pc = Function.update s.pc t nx.pc := by
  cases nx <;> rfl

theorem step_flow (h : next mode s (.step t) = some s') :
    s.running = some t ∧
      ∃ m nx, Flow mode s.mem (s.pc t) m nx ∧ s' = s.settle t m nx := by
  simp only [next] at h
  split at h
  · rename_i hrun
    obtain ⟨⟨m, nx⟩, hexec, rfl⟩ := Option.map_eq_some_iff.mp h
    exact ⟨hrun, m, nx, exec_flow hexec, rfl⟩
  · cases h

theorem go_eq (h : next mode s (.go t) = some s') :
    s.running = none ∧ (s.pc t).waits = true ∧ s' = { s with running := some t } := by
  simp only [next] at h
  split at h
  · rename_i hgo
    cases h
    exact ⟨hgo.1, hgo.2, rfl⟩
  · cases h

theorem call_eq {op : Op n} (h : next mode s (.call t op) = some s') :
    s.running = none ∧ s.pc t = .idle ∧ s' = s.call t op := by
  simp only [next] at h
  split at h
  · rename_i hcall
    cases h
    exact ⟨hcall.1, hcall.2, rfl⟩
  · cases h

theorem intr_eq {ok : Bool} (h : next mode s (.intr ok) = some s') :
    ∃ m, s.mem.complete ok = some m ∧ s' = { s with mem := m } := by
  obtain ⟨m, hm, rfl⟩ := Option.map_eq_some_iff.mp h
  exact ⟨m, hm, rfl⟩

theorem setDirt_eq {b : Fin n} {v : BitVec 8} (h : next mode s (.setDirt b v) = some s') :
    s' = { s with mem := s.mem.store b fun h => { h with bDirt := v } } := by
  simp only [next] at h
  split at h
  · exact (Option.some.inj h).symm
  · cases h

theorem setUptodate_eq {b : Fin n} {v : BitVec 8}
    (h : next mode s (.setUptodate b v) = some s') :
    s' = { s with mem := s.mem.store b fun h => { h with bUptodate := v } } := by
  simp only [next] at h
  split at h
  · exact (Option.some.inj h).symm
  · cases h

theorem call_cache (s : System n Task) (t : Task) (op : Op n) :
    (s.call t op).mem.cache = s.mem.cache ∧ (s.call t op).mem.dev = s.mem.dev := by
  cases op with
  | want w => exact ⟨rfl, rfl⟩
  | brelse b => cases b <;> exact ⟨rfl, rfl⟩
  | llRwBlock rw b => exact ⟨rfl, rfl⟩

/-- Of all that can happen, only a claim moves a head. -/
theorem step_sameLinks_or_claim (h : next mode s a = some s') :
    s.mem.cache.SameLinks s'.mem.cache ∨
      ∃ t w b c, a = .step t ∧ s.running = some t ∧ s.pc t = .claim w b ∧
        s.mem.cache.findBuffer w.dev w.block = some none ∧
        s.mem.cache.claim b w.dev w.block = some c ∧ s'.mem = { s.mem with cache := c } := by
  cases a with
  | call t op =>
    obtain ⟨_, _, rfl⟩ := call_eq h
    rw [(call_cache s t op).1]
    exact Or.inl (.refl _)
  | go t =>
    obtain ⟨_, _, rfl⟩ := go_eq h
    exact Or.inl (.refl _)
  | step t =>
    obtain ⟨hrun, m, nx, hflow, rfl⟩ := step_flow h
    rw [settle_mem]
    rcases hflow.sameLinks_or_claim with hs | ⟨w, b, c, hp, hnone, hc, hm, _⟩
    · exact Or.inl hs
    · exact Or.inr ⟨t, w, b, c, rfl, hrun, hp, hnone, hc, hm⟩
  | intr ok =>
    obtain ⟨m, hm, rfl⟩ := intr_eq h
    obtain ⟨req, hreq⟩ := complete_cases hm
    left
    rw [show ({ s with mem := m } : System n Task).mem = m from rfl, hreq.cache]
    exact .store _ _ fun _ => ⟨rfl, rfl, rfl, rfl, rfl, rfl⟩
  | setDirt b v =>
    rw [setDirt_eq h]
    exact Or.inl (sameLinks_store _ _ fun _ => ⟨rfl, rfl, rfl, rfl, rfl, rfl⟩)
  | setUptodate b v =>
    rw [setUptodate_eq h]
    exact Or.inl (sameLinks_store _ _ fun _ => ⟨rfl, rfl, rfl, rfl, rfl, rfl⟩)

/-! ## One task at a time -/

/-- A task that does not run is between calls or at a place where it can be asleep. -/
def Alone (s : System n Task) : Prop :=
  ∀ t, s.running ≠ some t → s.pc t = .idle ∨ (s.pc t).waits = true

omit [DecidableEq Task] in
theorem Start.alone (h : Start s) : Alone s := fun t _ => Or.inl (h.idle t)

theorem alone_settle {m : Mem n} {nx : Next n} (h : Alone s)
    (hrun : s.running = some t ∨ s.running = none)
    (hy : ∀ p, nx = .yield p → p = .idle ∨ p.waits = true) : Alone (s.settle t m nx) := by
  intro x hx
  rw [settle_pc]
  by_cases hxt : x = t
  · subst hxt
    rw [Function.update_self]
    cases nx with
    | go p => exact absurd rfl hx
    | yield p => exact hy p rfl
  · rw [Function.update_of_ne hxt]
    apply h x
    rcases hrun with hrun | hrun <;> rw [hrun]
    · exact fun e => hxt (Option.some.inj e).symm
    · simp

theorem alone_step (h : Alone s) (hs : next mode s a = some s') : Alone s' := by
  cases a with
  | call t op =>
    obtain ⟨hrun, hidle, rfl⟩ := call_eq hs
    cases op with
    | want w => exact alone_settle h (Or.inr hrun) (by simp)
    | brelse b =>
      cases b with
      | none => exact h
      | some b => exact alone_settle h (Or.inr hrun) (by simp)
    | llRwBlock rw b => exact alone_settle h (Or.inr hrun) (by simp)
  | go t =>
    obtain ⟨hrun, _, rfl⟩ := go_eq hs
    exact fun x _ => h x (by simp [hrun])
  | step t =>
    obtain ⟨hrun, m, nx, hflow, rfl⟩ := step_flow hs
    refine alone_settle h (Or.inl hrun) fun p hp => ?_
    rw [hp] at hflow
    exact hflow.yields
  | intr ok =>
    obtain ⟨m, _, rfl⟩ := intr_eq hs
    exact h
  | setDirt b v =>
    rw [setDirt_eq hs]
    exact h
  | setUptodate b v =>
    rw [setUptodate_eq hs]
    exact h

/-- The place a call starts at. -/
def first : Op n → Pc n
  | .want w => .lookup w
  | .brelse none => .idle
  | .brelse (some b) => .brelseWait none b
  | .llRwBlock rw b => .rwEntry none rw b

theorem call_pc (hidle : s.pc t = .idle) (op : Op n) :
    (s.call t op).pc = Function.update s.pc t (first op) := by
  cases op with
  | want w => exact settle_pc _ _ _ _
  | brelse b =>
    cases b with
    | none =>
      show s.pc = Function.update s.pc t .idle
      rw [← hidle, Function.update_eq_self]
    | some b => exact settle_pc _ _ _ _
  | llRwBlock rw b => exact settle_pc _ _ _ _

/-- How a step bears on one task: it is the task's own, or the call it makes, or the task
stays where it is.  Then it rests or the step is an interrupt. -/
theorem pc_cases (hal : Alone s) (hs : next mode s a = some s') (t : Task) :
    (∃ nx, a = .step t ∧ Flow mode s.mem (s.pc t) s'.mem nx ∧ s'.pc t = nx.pc) ∨
    (∃ op, a = .call t op ∧ s.pc t = .idle ∧ s'.pc t = first op) ∨
    (s'.pc t = s.pc t ∧
      ((s.pc t = .idle ∨ (s.pc t).waits = true) ∨
        ∃ ok, a = .intr ok ∧ s.mem.complete ok = some s'.mem)) := by
  have hrests : s.running = none → s.pc t = .idle ∨ (s.pc t).waits = true :=
    fun hrun => hal t (by simp [hrun])
  cases a with
  | call x op =>
    obtain ⟨hrun, hidle, rfl⟩ := call_eq hs
    rw [call_pc hidle]
    by_cases hxt : t = x
    · subst hxt
      exact Or.inr (Or.inl ⟨op, rfl, hidle, Function.update_self ..⟩)
    · exact Or.inr (Or.inr ⟨Function.update_of_ne hxt .., Or.inl (hrests hrun)⟩)
  | go x =>
    obtain ⟨hrun, _, rfl⟩ := go_eq hs
    exact Or.inr (Or.inr ⟨rfl, Or.inl (hrests hrun)⟩)
  | step x =>
    obtain ⟨hrun, m, nx, hflow, rfl⟩ := step_flow hs
    rw [settle_mem, settle_pc]
    by_cases hxt : t = x
    · subst hxt
      exact Or.inl ⟨nx, rfl, hflow, Function.update_self ..⟩
    · refine Or.inr (Or.inr ⟨Function.update_of_ne hxt .., Or.inl (hal t ?_)⟩)
      rw [hrun]
      exact fun e => hxt (Option.some.inj e).symm
  | intr ok =>
    obtain ⟨m, hm, rfl⟩ := intr_eq hs
    exact Or.inr (Or.inr ⟨rfl, Or.inr ⟨ok, rfl, hm⟩⟩)
  | setDirt b v =>
    have hrun : s.running = none := by
      by_contra hne
      simp [next, hne] at hs
    rw [setDirt_eq hs]
    exact Or.inr (Or.inr ⟨rfl, Or.inl (hrests hrun)⟩)
  | setUptodate b v =>
    have hrun : s.running = none := by
      by_contra hne
      simp [next, hne] at hs
    rw [setUptodate_eq hs]
    exact Or.inr (Or.inr ⟨rfl, Or.inl (hrests hrun)⟩)

end System

end Io
end CherryOS
