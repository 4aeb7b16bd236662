import CherryOS.Io.Bread

/-!
# What the flags of a locked buffer say

A read is asked for when the buffer is not up to date, a write when it is dirty.  Whoever
asks has the lock, first the task and then the slot it fills, and as long as the same owner
has the lock the flags stay as they are.  So when a request completes, its buffer still is as
it was when the request was made.

Callers set `b_dirt` to 1, and only in a buffer that is up to date and not locked.
-/

namespace CherryOS
namespace Io

open Kernel (U32)
open Fs (BufferHead Cache)
open Driver
open Lib

variable {n : Nat} {Task : Type} [DecidableEq Task] {mode : AddMode}

/-! ## Requests and what is asked -/

/-- The command of a request that a task has locked the buffer for. -/
def Asks (m : Mem n) (rw : U32) (b : Fin n) : Prop :=
  rw = BLK_READ ∧ (m.cache.bh b).bUptodate = 0 ∨ rw = BLK_WRITE ∧ (m.cache.bh b).bDirt ≠ 0

/-- The same of a filled slot: `add_request` has cleared `b_dirt`. -/
def Sent (m : Mem n) (rw : U32) (b : Fin n) : Prop :=
  (m.cache.bh b).bDirt = 0 ∧
    (rw = BLK_READ ∧ (m.cache.bh b).bUptodate = 0 ∨
      rw = BLK_WRITE ∧ (m.cache.bh b).bUptodate ≠ 0)

/-- What a task has found out about the buffer it is about to take. -/
def Pending (m : Mem n) : Pc n → Prop
  | .lockWait _ rw _ _ => rw = BLK_READ ∨ rw = BLK_WRITE
  | .findSlot _ rw b _ _ | .slotWait _ rw b _ | .fill _ rw b _ _ => Asks m rw b
  | .claim _ b => (m.cache.bh b).bDirt = 0
  | _ => True

/-- A dirty buffer is up to date. -/
def DirtOk (m : Mem n) : Prop :=
  ∀ b, (m.cache.bh b).bDirt ≠ 0 → (m.cache.bh b).bDirt = 1 ∧ (m.cache.bh b).bUptodate ≠ 0

theorem Asks.congr {m m' : Mem n} {rw : U32} {b : Fin n} (h : Asks m rw b)
    (hup : (m'.cache.bh b).bUptodate = (m.cache.bh b).bUptodate)
    (hdirt : (m'.cache.bh b).bDirt = (m.cache.bh b).bDirt) : Asks m' rw b := by
  rw [Asks, hup, hdirt]
  exact h

theorem Sent.congr {m m' : Mem n} {rw : U32} {b : Fin n} (h : Sent m rw b)
    (hup : (m'.cache.bh b).bUptodate = (m.cache.bh b).bUptodate)
    (hdirt : (m'.cache.bh b).bDirt = (m.cache.bh b).bDirt) : Sent m' rw b := by
  rw [Sent, hup, hdirt]
  exact h

/-- The flags of the locked buffers matter, and of the one that is about to be claimed. -/
theorem pending_of_locks {m m' : Mem n} {p : Pc n} (h : Pending m p)
    (hclaim : ∀ w b, p = .claim w b → (m'.cache.bh b).bDirt = 0)
    (hflags : ∀ b, p.locks = some b → (m'.cache.bh b).bUptodate = (m.cache.bh b).bUptodate ∧
      (m'.cache.bh b).bDirt = (m.cache.bh b).bDirt) : Pending m' p := by
  cases p with
  | findSlot caller rw b major left => exact h.congr (hflags b rfl).1 (hflags b rfl).2
  | slotWait caller rw b major => exact h.congr (hflags b rfl).1 (hflags b rfl).2
  | fill caller rw b major req => exact h.congr (hflags b rfl).1 (hflags b rfl).2
  | lockWait => exact h
  | claim w b => exact hclaim w b rfl
  | _ => trivial

/-- A step of the task itself: each of the three tests is where the source makes it. -/
theorem exec_pending {m m' : Mem n} {p : Pc n} {nx : Next n} (h : exec mode m p = some (m', nx))
    (hdirt : DirtOk m) (hp : Pending m p) : Pending m' nx.pc := by
  cases p with
  | checkDirty w b =>
    simp only [exec] at h
    split at h
    · cases h
      trivial
    · rename_i hclean
      cases h
      exact not_not.mp fun hne => hclean (hdirt b hne).1
  | rwEntry caller rw b =>
    simp only [exec] at h
    split at h
    · split at h
      · split at h
        · cases h
          trivial
        · rename_i hcommand
          cases h
          exact not_not.mp fun hne => hcommand (not_or.mp hne)
      · cases h
        trivial
    · cases h
      trivial
  | lockWait caller rw b major =>
    simp only [exec, afterWait] at h
    split at h
    · cases h
      exact hp
    · split at h
      · cases h
        trivial
      · rename_i hneed
        cases h
        rw [not_or] at hneed
        have hself : (m.store b fun h => { h with bLock := 1 }).cache.bh b =
            { m.cache.bh b with bLock := 1 } := Mem.store_self ..
        show Asks _ rw b
        rw [Asks, hself]
        rcases hp with hread | hwrite
        · exact Or.inl ⟨hread, not_not.mp fun hne => hneed.2 ⟨hread, hne⟩⟩
        · exact Or.inr ⟨hwrite, fun h0 => hneed.1 ⟨hwrite, h0⟩⟩
  | _ =>
    have hflow := exec_flow h
    cases hflow <;> trivial

/-! ## The flags under one owner -/

/-- Callers ask for blocks of `K`, and make a buffer dirty while it is up to date and nobody
has locked it.  For the rest they are polite. -/
def Careful (K : Set (U32 × U32)) (s : System n Task) : Act n Task → Prop
  | .call _ (.want w) => w.Narrow ∧ w.key ∈ K
  | .setDirt b v => v = 1 ∧ (s.mem.cache.bh b).bUptodate ≠ 0 ∧ (s.mem.cache.bh b).bLock = 0
  | a => Polite s a

variable {K : Set (U32 × U32)} {s s' : System n Task} {a : Act n Task}

omit [DecidableEq Task] in
theorem Careful.polite (h : Careful K s a) : Polite s a := by
  cases a with
  | call t op =>
    cases op with
    | want w => exact h.1
    | _ => exact h
  | setDirt b v => trivial
  | _ => exact h

omit [DecidableEq Task] in
theorem Sealed.locked (h : Sealed s) {o : Slot ⊕ Task} {b : Fin n}
    (ho : lockHolds s.mem s.pc o = some b) : (s.mem.cache.bh b).bLock = 1 :=
  BitVec.eq_of_toNat_eq (h.locks.count_of_holds trivial ho)

/-- What a step of a task does to the two flags. -/
theorem Flow.flag_cases {m m' : Mem n} {p : Pc n} {nx : Next n} (h : Flow mode m p m' nx)
    (hwf : m.cache.WellFormed) :
    (∀ b, (m'.cache.bh b).bUptodate = (m.cache.bh b).bUptodate ∧
      (m'.cache.bh b).bDirt = (m.cache.bh b).bDirt) ∨
    (∃ w b c, p = .claim w b ∧ m.cache.Claimed b w.dev w.block c ∧ m' = { m with cache := c }) ∨
    ∃ caller rw b k req, p = .fill caller rw b k req ∧ m.request mode rw b k req = some m' ∧
      nx.pc = .rwDone caller b := by
  have hstore : ∀ b (f : BufferHead n → BufferHead n), (∀ h, (f h).bUptodate = h.bUptodate) →
      (∀ h, (f h).bDirt = h.bDirt) → ∀ x,
      ((m.store b f).cache.bh x).bUptodate = (m.cache.bh x).bUptodate ∧
        ((m.store b f).cache.bh x).bDirt = (m.cache.bh x).bDirt :=
    fun b f hup hdirt x => ⟨Mem.store_keeps (g := fun h => h.bUptodate) hup m b x,
      Mem.store_keeps (g := fun h => h.bDirt) hdirt m b x⟩
  cases h with
  | hit => exact Or.inl (hstore _ _ (fun _ => rfl) fun _ => rfl)
  | lost => exact Or.inl (hstore _ _ (fun _ => rfl) fun _ => rfl)
  | released => exact Or.inl (hstore _ _ (fun _ => rfl) fun _ => rfl)
  | dropped => exact Or.inl (hstore _ _ (fun _ => rfl) fun _ => rfl)
  | lock => exact Or.inl (hstore _ _ (fun _ => rfl) fun _ => rfl)
  | @claimed w b c _ hc =>
    obtain ⟨c', hc', hcl, _⟩ := hwf.claim b w.dev w.block
    rw [hc, Option.some.injEq] at hc'
    subst hc'
    exact Or.inr (Or.inl ⟨w, b, c, rfl, hcl, rfl⟩)
  | fill hreq => exact Or.inr (Or.inr ⟨_, _, _, _, _, rfl, hreq, rfl⟩)
  | _ => exact Or.inl fun _ => ⟨rfl, rfl⟩

theorem fill_other {m m' : Mem n} {rw : U32} {b x : Fin n} {k : Major} {req : Slot}
    (h : m.request mode rw b k req = some m') (hx : x ≠ b) :
    m'.cache.bh x = m.cache.bh x := by
  rw [request_cache h, Cache.store_other _ hx]

theorem fill_self {m m' : Mem n} {rw : U32} {b : Fin n} {k : Major} {req : Slot}
    (h : m.request mode rw b k req = some m') :
    m'.cache.bh b = { m.cache.bh b with bDirt := 0 } := by
  rw [request_cache h, Cache.store_self]

/-- As long as the same owner has the lock of a buffer, its flags stay. -/
theorem flags_kept (h : Honest s) (hs : s.next mode a = some s') (hok : Careful K s a)
    {o : Slot ⊕ Task} {b : Fin n} (ho : lockHolds s.mem s.pc o = some b)
    (ho' : lockHolds s'.mem s'.pc o = some b) :
    (s'.mem.cache.bh b).bUptodate = (s.mem.cache.bh b).bUptodate ∧
      (s'.mem.cache.bh b).bDirt = (s.mem.cache.bh b).bDirt := by
  have hlock := h.locked ho
  cases a with
  | call t op =>
    obtain ⟨_, _, rfl⟩ := System.call_eq hs
    rw [(System.call_cache s t op).1]
    exact ⟨rfl, rfl⟩
  | go t =>
    obtain ⟨_, _, rfl⟩ := System.go_eq hs
    exact ⟨rfl, rfl⟩
  | step t =>
    obtain ⟨_, m, nx, hflow, rfl⟩ := System.step_flow hs
    rw [System.settle_mem] at ho' ⊢
    rw [System.settle_pc] at ho'
    have hready := h.ready t
    rcases hflow.flag_cases h.wellFormed with hsame | ⟨w, x, c, hpc, hcl, rfl⟩ |
      ⟨caller, rw, x, k, req, hpc, hreq, hnx⟩
    · exact hsame b
    · rw [hpc] at hready
      have hbx : b ≠ x := by
        intro hbx
        rw [hbx, hready.1] at hlock
        cases hlock
      exact ⟨(hcl.other b hbx).bUptodate, (hcl.other b hbx).bDirt⟩
    · have hbx : b ≠ x := by
        intro hbx
        have hmine : lockHolds s.mem s.pc (.inr t) = some b := by
          rw [lockHolds, hpc, hbx]
          rfl
        have hot := h.locks.alone b o (.inr t) trivial ho hmine
        rw [hot, lockHolds, Function.update_self, hnx] at ho'
        cases ho'
      rw [fill_other hreq hbx]
      exact ⟨rfl, rfl⟩
  | intr ok =>
    obtain ⟨m, hm, rfl⟩ := System.intr_eq hs
    obtain ⟨req, hc⟩ := complete_cases hm
    obtain ⟨x, hx, _, _⟩ := h.completes hc
    have hbx : b ≠ x := by
      intro hbx
      have hslot : lockHolds s.mem s.pc (.inl req) = some b := by
        rw [lockHolds, idle_of_major hc.major, hbx]
        exact hx
      have hor := h.locks.alone b o (.inl req) trivial ho hslot
      have hidle : (m.dev.request req).idle = true := by
        rw [hc.dev, BlkDev.retire_request, if_pos rfl, idle_neg_one]
      rw [hor, lockHolds] at ho'
      rw [show ({ s with mem := m } : System n Task).mem = m from rfl, if_pos hidle] at ho'
      cases ho'
    show (m.cache.bh b).bUptodate = _ ∧ (m.cache.bh b).bDirt = _
    rw [hc.cache, hx, Cache.store_other _ hbx]
    exact ⟨rfl, rfl⟩
  | setDirt x v =>
    rw [System.setDirt_eq hs]
    have hbx : b ≠ x := by
      intro hbx
      rw [hbx, hok.2.2] at hlock
      cases hlock
    show ((s.mem.store x _).cache.bh b).bUptodate = _ ∧ ((s.mem.store x _).cache.bh b).bDirt = _
    rw [Mem.store_other _ _ hbx]
    exact ⟨rfl, rfl⟩
  | setUptodate x v => cases hok

/-! ## The invariant -/

structure Orderly (K : Set (U32 × U32)) (s : System n Task) : Prop extends Honest s where
  wants : ∀ t w, (s.pc t).want = some w → w.key ∈ K
  known : ∀ b, (s.mem.cache.bh b).bDev ≠ 0 → (s.mem.cache.bh b).key ∈ K
  dirt : DirtOk s.mem
  pending : ∀ t, Pending s.mem (s.pc t)
  sent : ∀ r, (s.mem.dev.request r).idle = false → ∀ b, (s.mem.dev.request r).bh = some b →
    Sent s.mem (s.mem.dev.request r).cmd b

omit [DecidableEq Task] in
/-- A claim is of a buffer that is clean and that nobody has locked. -/
theorem Orderly.claims (h : Orderly K s) {t : Task} {w : Want} {b : Fin n}
    (hpc : s.pc t = .claim w b) :
    (s.mem.cache.bh b).bLock = 0 ∧ (s.mem.cache.bh b).bDirt = 0 ∧ w.key ∈ K := by
  have hready := h.ready t
  have hpending := h.pending t
  rw [hpc] at hready hpending
  exact ⟨hready.1, hpending, h.wants t w (by rw [hpc]; rfl)⟩

omit [DecidableEq Task] in
/-- The request that completes, its buffer and its block. -/
theorem Orderly.completes (h : Orderly K s) {m : Mem n} {ok : Bool} {req : Slot}
    (hc : Completed s.mem ok req m) :
    ∃ b, (s.mem.dev.request req).bh = some b ∧ (s.mem.cache.bh b).bLock = 1 ∧
      (s.mem.cache.bh b).key ∈ K ∧ Sent s.mem (s.mem.dev.request req).cmd b ∧
      (s.mem.dev.request req).dev = (s.mem.cache.bh b).bDev.zeroExtend 32 ∧
      (s.mem.dev.request req).sector = (s.mem.cache.bh b).bBlocknr * 2 := by
  obtain ⟨b, hb, hlock, hdev⟩ := h.toSealed.completes hc
  have hfilled := idle_of_major hc.major
  obtain ⟨x, hx, hd, hsector⟩ := h.slot req hfilled
  have hxb : x = b := Option.some.inj (hx.symm.trans hb)
  rw [hxb] at hd hsector
  exact ⟨b, hb, hlock, h.known b hdev, h.sent req hfilled b hb, hd, hsector⟩

theorem wants_step (h : Orderly K s) (hs : s.next mode a = some s') (hok : Careful K s a)
    (t : Task) (w : Want) (hw : (s'.pc t).want = some w) : w.key ∈ K := by
  rcases System.pc_cases h.alone hs t with ⟨nx, _, hflow, hpc⟩ | ⟨op, rfl, _, hpc⟩ | ⟨hpc, _⟩ <;>
    rw [hpc] at hw
  · exact h.wants t w (hflow.want_eq hw)
  · cases op with
    | want v =>
      cases hw
      exact hok.2
    | brelse b => cases b <;> cases hw
    | llRwBlock rw b => cases hw
  · exact h.wants t w hw

theorem known_step (h : Orderly K s) (hs : s.next mode a = some s') (b : Fin n)
    (hb : (s'.mem.cache.bh b).bDev ≠ 0) : (s'.mem.cache.bh b).key ∈ K := by
  rcases System.step_sameLinks_or_claim hs with hsame | ⟨t, w, x, c, _, _, hpc, _, hc, hm⟩
  · rw [(hsame.bh b).bDev] at hb
    rw [(hsame.bh b).key]
    exact h.known b hb
  · obtain ⟨c', hc', hcl, _⟩ := h.wellFormed.claim x w.dev w.block
    rw [hc, Option.some.injEq] at hc'
    subst hc'
    rw [hm] at hb ⊢
    have hwant : (s.pc t).want = some w := by
      rw [hpc]
      rfl
    by_cases hbx : b = x
    · subst hbx
      show (c.bh b).key ∈ K
      rw [(h.narrow t w hwant).claimed hcl]
      exact h.wants t w hwant
    · have hother := hcl.other b hbx
      show (c.bh b).key ∈ K
      rw [hother.key]
      exact h.known b (hother.bDev ▸ hb)

theorem dirt_step (h : Orderly K s) (hs : s.next mode a = some s') (hok : Careful K s a) :
    DirtOk s'.mem := by
  cases a with
  | call t op =>
    obtain ⟨_, _, rfl⟩ := System.call_eq hs
    rw [DirtOk, (System.call_cache s t op).1]
    exact h.dirt
  | go t =>
    obtain ⟨_, _, rfl⟩ := System.go_eq hs
    exact h.dirt
  | step t =>
    obtain ⟨_, m, nx, hflow, rfl⟩ := System.step_flow hs
    rw [System.settle_mem]
    intro x hx
    rcases hflow.flag_cases h.wellFormed with hsame | ⟨w, b, c, _, hcl, rfl⟩ |
      ⟨caller, rw, b, k, req, _, hreq, _⟩
    · rw [(hsame x).1, (hsame x).2] at *
      exact h.dirt x hx
    · by_cases hxb : x = b
      · rw [hxb] at hx
        exact absurd hcl.self.bDirt hx
      · have hother := hcl.other x hxb
        show (c.bh x).bDirt = 1 ∧ (c.bh x).bUptodate ≠ 0
        rw [hother.bDirt, hother.bUptodate]
        exact h.dirt x (hother.bDirt ▸ hx)
    · by_cases hxb : x = b
      · rw [hxb, fill_self hreq] at hx
        exact absurd rfl hx
      · rw [fill_other hreq hxb] at hx ⊢
        exact h.dirt x hx
  | intr ok =>
    obtain ⟨m, hm, rfl⟩ := System.intr_eq hs
    obtain ⟨req, hc⟩ := complete_cases hm
    obtain ⟨b, hb, _, _, hsent, _⟩ := h.completes hc
    intro x hx
    change (m.cache.bh x).bDirt ≠ 0 at hx
    show (m.cache.bh x).bDirt = 1 ∧ (m.cache.bh x).bUptodate ≠ 0
    rw [hc.cache, hb] at hx ⊢
    by_cases hxb : x = b
    · rw [hxb, Cache.store_self] at hx
      exact absurd hsent.1 hx
    · rw [Cache.store_other _ hxb] at hx ⊢
      exact h.dirt x hx
  | setDirt b v =>
    rw [System.setDirt_eq hs]
    intro x hx
    change ((s.mem.store b _).cache.bh x).bDirt ≠ 0 at hx
    show ((s.mem.store b _).cache.bh x).bDirt = 1 ∧ ((s.mem.store b _).cache.bh x).bUptodate ≠ 0
    by_cases hxb : x = b
    · rw [hxb, Mem.store_self]
      exact ⟨hok.1, hok.2.1⟩
    · rw [Mem.store_other _ _ hxb] at hx ⊢
      exact h.dirt x hx
  | setUptodate b v => cases hok

theorem System.step_exec {t : Task} (hs : s.next mode (.step t) = some s') :
    ∃ m nx, exec mode s.mem (s.pc t) = some (m, nx) ∧ s' = s.settle t m nx := by
  simp only [System.next] at hs
  split at hs
  · obtain ⟨⟨m, nx⟩, hexec, rfl⟩ := Option.map_eq_some_iff.mp hs
    exact ⟨m, nx, hexec, rfl⟩
  · cases hs

theorem pending_step (h : Orderly K s) (hs : s.next mode a = some s') (hok : Careful K s a)
    (t : Task) : Pending s'.mem (s'.pc t) := by
  have hstay : s'.pc t = s.pc t →
      (∀ w b, s.pc t = .claim w b → (s'.mem.cache.bh b).bDirt = 0) →
      Pending s'.mem (s'.pc t) := by
    intro hpc hclaim
    rw [hpc]
    refine pending_of_locks (h.pending t) hclaim fun b hb => ?_
    have hholds' : lockHolds s'.mem s'.pc (.inr t) = some b := by
      rw [lockHolds, hpc]
      exact hb
    exact flags_kept h.toHonest hs hok (o := .inr t) hb hholds'
  rcases System.pc_cases h.alone hs t with ⟨nx, rfl, _, _⟩ | ⟨op, _, _, hpc⟩ |
    ⟨hpc, hrest | ⟨ok, rfl, hm⟩⟩
  · obtain ⟨m, nx, hexec, rfl⟩ := System.step_exec hs
    rw [System.settle_mem, System.settle_pc, Function.update_self]
    exact exec_pending hexec h.dirt (h.pending t)
  · rw [hpc]
    cases op with
    | want w => trivial
    | brelse b => cases b <;> trivial
    | llRwBlock rw b => trivial
  · refine hstay hpc fun w b hclaim => ?_
    rw [hclaim] at hrest
    rcases hrest with hidle | hwaits
    · cases hidle
    · cases hwaits
  · refine hstay hpc fun w b hclaim => ?_
    obtain ⟨req, hc⟩ := complete_cases hm
    rw [hc.cache, Cache.store_bh]
    split <;> exact (h.claims hclaim).2.1

theorem request_cmd {m m' : Mem n} {rw : U32} {b : Fin n} {k : Major} {req : Slot}
    (h : m.request mode rw b k req = some m') : (m'.dev.request req).cmd = rw := by
  obtain ⟨d, hd, rfl⟩ := Option.map_eq_some_iff.mp h
  have hself := (BlkDev.addRequest_request hd).2 req
  rw [BlkDev.fill, BlkDev.set_request, if_pos rfl] at hself
  exact congrArg BlkRequest.cmd hself

/-- A filled slot was filled before, or a task has filled it now. -/
theorem slot_cases (hs : s.next mode a = some s') {r : Slot}
    (hr : (s'.mem.dev.request r).idle = false) :
    ((s.mem.dev.request r).idle = false ∧ (s'.mem.dev.request r).bh = (s.mem.dev.request r).bh ∧
      (s'.mem.dev.request r).cmd = (s.mem.dev.request r).cmd) ∨
    ∃ t caller rw b k, s.pc t = .fill caller rw b k r ∧
      s.mem.request mode rw b k r = some s'.mem := by
  have hsame : s'.mem.dev = s.mem.dev → (s.mem.dev.request r).idle = false ∧
      (s'.mem.dev.request r).bh = (s.mem.dev.request r).bh ∧
      (s'.mem.dev.request r).cmd = (s.mem.dev.request r).cmd := by
    intro hdev
    rw [hdev] at hr ⊢
    exact ⟨hr, rfl, rfl⟩
  cases a with
  | call t op =>
    obtain ⟨_, _, rfl⟩ := System.call_eq hs
    exact Or.inl (hsame (System.call_cache s t op).2)
  | go t =>
    obtain ⟨_, _, rfl⟩ := System.go_eq hs
    exact Or.inl (hsame rfl)
  | step t =>
    obtain ⟨_, m, nx, hflow, rfl⟩ := System.step_flow hs
    rw [System.settle_mem] at hr hsame ⊢
    rcases hflow.dev_cases with ⟨hdev, _, _⟩ | ⟨caller, rw, b, k, req, hpc, hreq⟩
    · exact Or.inl (hsame hdev)
    · by_cases hrr : r = req
      · exact Or.inr ⟨t, caller, rw, b, k, hrr ▸ hpc, hrr ▸ hreq⟩
      · have hspec := request_spec hreq
        have hother := hspec.other r hrr
        rw [BlkRequest.idle, hspec.other_dev hrr] at hr
        have hbh := congrArg BlkRequest.bh hother
        have hcmd := congrArg BlkRequest.cmd hother
        exact Or.inl ⟨hr, hbh, hcmd⟩
  | intr ok =>
    obtain ⟨m, hm, rfl⟩ := System.intr_eq hs
    obtain ⟨req, hc⟩ := complete_cases hm
    have hset : m.dev.request r = if r = req then { s.mem.dev.request r with dev := -1 }
        else s.mem.dev.request r := by
      rw [hc.dev, BlkDev.retire_request]
    change (m.dev.request r).idle = false at hr
    by_cases hrr : r = req
    · rw [hset, if_pos hrr, idle_neg_one] at hr
      cases hr
    · rw [hset, if_neg hrr] at hr
      refine Or.inl ⟨hr, ?_⟩
      show (m.dev.request r).bh = _ ∧ (m.dev.request r).cmd = _
      rw [hset, if_neg hrr]
      exact ⟨rfl, rfl⟩
  | setDirt b v =>
    rw [System.setDirt_eq hs] at hsame ⊢
    exact Or.inl (hsame rfl)
  | setUptodate b v =>
    rw [System.setUptodate_eq hs] at hsame ⊢
    exact Or.inl (hsame rfl)

theorem sent_step (h : Orderly K s) (hs : s.next mode a = some s') (hok : Careful K s a)
    (r : Slot) (hr : (s'.mem.dev.request r).idle = false) (b : Fin n)
    (hb : (s'.mem.dev.request r).bh = some b) : Sent s'.mem (s'.mem.dev.request r).cmd b := by
  rcases slot_cases hs hr with ⟨hfilled, hbh, hcmd⟩ | ⟨t, caller, rw, x, k, hpc, hreq⟩
  · rw [hbh] at hb
    have hholds : lockHolds s.mem s.pc (.inl r) = some b := by
      rw [lockHolds, hfilled]
      exact hb
    have hholds' : lockHolds s'.mem s'.pc (.inl r) = some b := by
      rw [lockHolds, hr, hbh]
      exact hb
    obtain ⟨hup, hdirt⟩ := flags_kept h.toHonest hs hok hholds hholds'
    rw [hcmd]
    exact (h.sent r hfilled b hb).congr hup hdirt
  · have hxb : x = b := Option.some.inj ((request_spec hreq).bh.symm.trans hb)
    subst hxb
    have hasks := h.pending t
    rw [hpc] at hasks
    rw [request_cmd hreq, Sent, fill_self hreq]
    refine ⟨rfl, ?_⟩
    rcases hasks with ⟨hread, hup⟩ | ⟨hwrite, hdirt⟩
    · exact Or.inl ⟨hread, hup⟩
    · exact Or.inr ⟨hwrite, (h.dirt x hdirt).2⟩

theorem orderly_step (h : Orderly K s) (hs : s.next mode a = some s') (hok : Careful K s a) :
    Orderly K s' :=
  ⟨honest_step h.toHonest hs hok.polite, wants_step h hs hok, known_step h hs,
    dirt_step h hs hok, pending_step h hs hok, sent_step h hs hok⟩

omit [DecidableEq Task] in
theorem orderly_start [NeZero n] (h : Fresh s) : Orderly K s := by
  obtain ⟨bufferEnd, blocknr, hcache⟩ := h.cache
  refine ⟨honest_start h, fun t w hw => ?_, fun b hb => ?_, fun b hb => ?_, fun t => ?_,
    fun r hr => ?_⟩
  · rw [h.idle t] at hw
    cases hw
  · rw [hcache] at hb
    exact absurd rfl hb
  · rw [hcache] at hb
    exact absurd rfl hb
  · rw [h.idle t]
    trivial
  · rw [h.slots r] at hr
    cases hr

end Io
end CherryOS
