import CherryOS.Io.Uptodate
import CherryOS.Lib.Tally

/-!
# What `bread` returns

`bread` waits for its read with a reference to the buffer.  As long as the references add
up to `b_count`, nobody claims the buffer meanwhile, and what `bread` returns is the block
it was asked for, read by a completion that succeeded.

They add up while callers give back only what they were given and no count passes 255.
-/

namespace CherryOS
namespace Io

open Kernel (U32)
open Fs (BufferHead Cache)
open Driver
open Lib

variable {n : Nat} {Task : Type} [DecidableEq Task] {mode : AddMode}

/-! ## References -/

/-- The buffer a call holds a reference to. -/
def Pc.holds : Pc n → Option (Fin n)
  | .hashWait _ b | .gotBlk _ b | .brelseWait _ b => some b
  | p => p.reading.map Prod.snd

def counts (m : Mem n) (b : Fin n) : Nat := (m.cache.bh b).bCount.toNat

/-- `b_count` is the number of references, the callers' and the calls'. -/
def Counted (m : Mem n) (pc : Task → Pc n) : Prop :=
  Tally (fun t => (pc t).holds) m.handed (counts m)

/-- `bread` asks for a read. -/
def Pc.Reads : Pc n → Prop
  | .rwEntry (some _) rw _ => rw = BLK_READ
  | _ => True

theorem Flow.reads {m m' : Mem n} {p : Pc n} {nx : Next n} (h : Flow mode m p m' nx)
    (hp : p.Reads) : nx.pc.Reads := by
  cases h with
  | locked => exact hp
  | invalid => exact rfl
  | _ => trivial

theorem holds_update (pc : Task → Pc n) (t : Task) (p : Pc n) :
    (fun x => (Function.update pc t p x).holds) =
      Function.update (fun x => (pc x).holds) t p.holds := by
  funext x
  by_cases hx : x = t
  · subst hx
    rw [Function.update_self, Function.update_self]
  · rw [Function.update_of_ne hx, Function.update_of_ne hx]

theorem counts_store (m : Mem n) (b : Fin n) (f : BufferHead n → BufferHead n) :
    counts (m.store b f) = Function.update (counts m) b (f (m.cache.bh b)).bCount.toNat := by
  funext x
  by_cases hx : x = b
  · subst hx
    rw [Function.update_self, counts, Mem.store_self]
  · rw [Function.update_of_ne hx, counts, Mem.store_other _ _ hx, counts]

namespace Counted

variable {m m' : Mem n} {pc : Task → Pc n} {t : Task} {b : Fin n} {p' : Pc n}

theorem same (h : Counted m pc) (hp : p'.holds = (pc t).holds) (hh : m'.handed = m.handed)
    (hc : counts m' = counts m) : Counted m' (Function.update pc t p') := by
  rw [Counted, holds_update, hh, hc, hp, Function.update_eq_self]
  exact h

theorem hold (h : Counted m pc) (hp : (pc t).holds = none) (hp' : p'.holds = some b)
    (hroom : (m.cache.bh b).bCount ≠ 255) : Counted (m.hold b) (Function.update pc t p') := by
  have hcount : ((m.cache.bh b).bCount + 1).toNat = counts m b + 1 := by
    have hlt := (m.cache.bh b).bCount.isLt
    have hne : (m.cache.bh b).bCount.toNat ≠ 255 := fun e => hroom (BitVec.eq_of_toNat_eq e)
    rw [BitVec.toNat_add, counts]
    show ((m.cache.bh b).bCount.toNat + 1) % 256 = _
    omega
  rw [Counted, holds_update, hp', Mem.hold, counts_store, hcount]
  exact h.join hp b

theorem unhold (h : Counted m pc) (hp : (pc t).holds = some b) (hp' : p'.holds = none) :
    Counted (m.unhold b) (Function.update pc t p') := by
  have hpos : 0 < counts m b := h.pos hp
  have hcount : ((m.cache.bh b).bCount - 1).toNat = counts m b - 1 := by
    have hlt := (m.cache.bh b).bCount.isLt
    rw [BitVec.toNat_sub, counts]
    rw [counts] at hpos
    show (256 - 1 + (m.cache.bh b).bCount.toNat) % 256 = _
    omega
  rw [Counted, holds_update, hp', Mem.unhold, counts_store, hcount]
  exact h.leave hp

theorem handOut (h : Counted m pc) (hp : (pc t).holds = some b) (hp' : p'.holds = none) :
    Counted (m.handOut b) (Function.update pc t p') := by
  rw [Counted, holds_update, hp']
  exact h.release hp

theorem handBack (h : Counted m pc) (hp : (pc t).holds = none) (hp' : p'.holds = some b)
    (hb : 0 < m.handed b) : Counted (m.handBack b) (Function.update pc t p') := by
  rw [Counted, holds_update, hp']
  exact h.claim hp hb

/-- The head that is claimed had no references. -/
theorem claim {c : Cache n} {dev block : U32} (h : Counted m pc) (hp : (pc t).holds = none)
    (hp' : p'.holds = some b) (h0 : (m.cache.bh b).bCount = 0)
    (hcl : m.cache.Claimed b dev block c) :
    Counted { m with cache := c } (Function.update pc t p') := by
  have hcount : counts { m with cache := c } =
      Function.update (counts m) b (counts m b + 1) := by
    funext x
    by_cases hx : x = b
    · subst hx
      rw [Function.update_self, counts, counts, h0, hcl.self.bCount]
      rfl
    · rw [Function.update_of_ne hx, counts, counts, (hcl.other x hx).bCount]
  rw [Counted, holds_update, hp', hcount]
  exact h.join hp b

end Counted

/-- The count of the buffer that a look-up finds has room for another reference. -/
def Room (m : Mem n) : Pc n → Prop
  | .lookup w => ∀ b, m.cache.findBuffer w.dev w.block = some (some b) →
      (m.cache.bh b).bCount ≠ 255
  | _ => True

theorem Counted.flow {m m' : Mem n} {pc : Task → Pc n} {t : Task} {nx : Next n}
    (h : Counted m pc) (hflow : Flow mode m (pc t) m' nx) (hwf : m.cache.WellFormed)
    (hready : Ready m (pc t)) (hreads : (pc t).Reads) (hroom : Room m (pc t)) :
    Counted m' (Function.update pc t nx.pc) := by
  generalize hp : pc t = p at hflow hready hreads hroom
  have hsame : ∀ {p' : Pc n}, p'.holds = p.holds → Counted m (Function.update pc t p') :=
    fun hp' => h.same (by rw [hp', hp]) rfl rfl
  have hflag : ∀ {p' : Pc n} (b) (f : BufferHead n → BufferHead n),
      (∀ h, (f h).bCount = h.bCount) → p'.holds = p.holds →
      Counted (m.store b f) (Function.update pc t p') := by
    intro p' b f hf hp'
    refine h.same (by rw [hp', hp]) rfl ?_
    rw [counts_store, hf]
    exact Function.update_eq_self b (counts m)
  cases hflow with
  | hit hfind => exact h.hold (by rw [hp]; rfl) rfl (hroom _ hfind)
  | found => exact h.handOut (by rw [hp]; rfl) rfl
  | valid => exact h.handOut (by rw [hp]; rfl) rfl
  | readOk => exact h.handOut (by rw [hp]; rfl) rfl
  | lost => exact h.unhold (by rw [hp]; rfl) rfl
  | released => exact h.unhold (by rw [hp]; rfl) rfl
  | dropped => exact h.unhold (by rw [hp]; rfl) rfl
  | @claimed w b c _ hc =>
    obtain ⟨c', hc', hcl, _⟩ := hwf.claim b w.dev w.block
    rw [hc, Option.some.injEq] at hc'
    subst hc'
    exact h.claim (by rw [hp]; rfl) rfl hready.2 hcl
  | @badCommand caller rw b hbad =>
    cases caller with
    | none => exact hsame rfl
    | some w => exact absurd hreads hbad
  | @freeing caller b h0 =>
    have hpos : 0 < counts m b := h.pos (o := t) (by rw [hp]; rfl)
    rw [counts, h0] at hpos
    exact absurd hpos (by decide)
  | lock => exact hflag _ _ (fun _ => rfl) rfl
  | fill hreq =>
    refine h.same (by rw [hp]; rfl) ?_ ?_
    · obtain ⟨d, _, rfl⟩ := Option.map_eq_some_iff.mp hreq
      rfl
    · funext x
      rw [counts, request_cache hreq, Cache.store_bh]
      split <;> rfl
  | _ => exact hsame rfl

/-- Callers give back references they were given. -/
def Owed (s : System n Task) : Act n Task → Prop
  | .call _ (.brelse (some b)) => 0 < s.mem.handed b
  | _ => True

/-- No look-up raises a count of 255. -/
def HasRoom (s : System n Task) : Act n Task → Prop
  | .step t => Room s.mem (s.pc t)
  | _ => True

theorem counted_step {s s' : System n Task} {a : Act n Task} (hsafe : Safe s)
    (hreads : ∀ t, (s.pc t).Reads) (h : Counted s.mem s.pc) (hs : s.next mode a = some s')
    (howed : Owed s a) (hroom : HasRoom s a) : Counted s'.mem s'.pc := by
  cases a with
  | call t op =>
    obtain ⟨_, hidle, rfl⟩ := System.call_eq hs
    have hnone : (s.pc t).holds = none := by
      rw [hidle]
      rfl
    rw [System.call_pc hidle]
    cases op with
    | want w => exact h.same (by rw [hnone]; rfl) rfl rfl
    | brelse b =>
      cases b with
      | none => exact h.same (by rw [hnone]; rfl) rfl rfl
      | some b => exact h.handBack hnone rfl howed
    | llRwBlock rw b => exact h.same (by rw [hnone]; rfl) rfl rfl
  | go t =>
    obtain ⟨_, _, rfl⟩ := System.go_eq hs
    exact h
  | step t =>
    obtain ⟨_, m, nx, hflow, rfl⟩ := System.step_flow hs
    rw [System.settle_mem, System.settle_pc]
    exact h.flow hflow hsafe.wellFormed (hsafe.ready t) (hreads t) hroom
  | intr ok =>
    obtain ⟨m, hm, rfl⟩ := System.intr_eq hs
    obtain ⟨req, hc⟩ := complete_cases hm
    refine h.congr (fun _ => rfl) (fun b => ?_) fun b => ?_
    · rw [hc.handed]
    · exact congrArg BitVec.toNat (hc.unlocks.bCount b)
  | setDirt b v =>
    rw [System.setDirt_eq hs]
    refine h.congr (fun _ => rfl) (fun _ => rfl) fun x => ?_
    rw [counts_store]
    exact congrFun (Function.update_eq_self b (counts s.mem)) x
  | setUptodate b v =>
    rw [System.setUptodate_eq hs]
    refine h.congr (fun _ => rfl) (fun _ => rfl) fun x => ?_
    rw [counts_store]
    exact congrFun (Function.update_eq_self b (counts s.mem)) x

/-! ## What `bread` knows -/

/-- `bread` is about to return a buffer of its block that is up to date. -/
def Valid (m : Mem n) : Pc n → Prop
  | .ret w (some b) => w.kind = .bread →
      (m.cache.bh b).key = w.key ∧ (m.cache.bh b).bUptodate ≠ 0 ∧ (m.cache.bh b).bLock = 0
  | _ => True

theorem valid_of_rest {m : Mem n} {p : Pc n} (h : p = .idle ∨ p.waits = true) : Valid m p := by
  rcases h with rfl | h
  · trivial
  · cases p <;> trivial

theorem Flow.valid_ret {m m' : Mem n} {p : Pc n} {nx : Next n} (h : Flow mode m p m' nx)
    (hready : Ready m p) (hright : Right m p)
    (hkey : ∀ w b, p.reading = some (w, b) → (m.cache.bh b).key = w.key) (hp : Valid m p) :
    Valid m' nx.pc := by
  cases h with
  | locked => exact hp
  | found _ _ hk =>
    intro hbread
    rw [hk] at hbread
    cases hbread
  | valid hup => exact fun hbread => ⟨hright, hup hbread, hready⟩
  | readOk hlock hup => exact fun _ => ⟨hkey _ _ rfl, hup, hlock⟩
  | _ => trivial

/-- A completion is of a locked buffer, and the one about to be returned is not locked. -/
theorem Valid.complete {m m' : Mem n} {p : Pc n} {ok : Bool} {req : Slot} {x : Fin n}
    (h : Valid m p) (hc : Completed m ok req m') (hx : (m.dev.request req).bh = some x)
    (hlock : (m.cache.bh x).bLock = 1) : Valid m' p := by
  cases p with
  | ret w bh =>
    cases bh with
    | none => trivial
    | some b =>
      intro hbread
      obtain ⟨hkey, hup, hfree⟩ := h hbread
      have hbx : b ≠ x := by
        rintro rfl
        rw [hlock] at hfree
        cases hfree
      have hsame : m'.cache.bh b = m.cache.bh b := by
        rw [hc.cache, hx, Cache.store_other _ hbx]
      rw [hsame]
      exact ⟨hkey, hup, hfree⟩
  | _ => trivial

/-- Where a call of `bread` got its read from. -/
theorem Flow.reading_cases {m m' : Mem n} {p : Pc n} {nx : Next n} (h : Flow mode m p m' nx)
    {w : Want} {b : Fin n} (hr : nx.pc.reading = some (w, b)) :
    p.reading = some (w, b) ∨ p = .gotBlk w b := by
  cases h with
  | invalid =>
    cases hr
    exact Or.inr rfl
  | _ => first | exact Or.inl hr | cases hr

theorem holds_of_reading {p : Pc n} {w : Want} {b : Fin n} (h : p.reading = some (w, b)) :
    p.holds = some b := by
  cases p with
  | brelseWait caller x =>
    cases caller with
    | none => cases h
    | some v =>
      cases h
      rfl
  | readWait v x =>
    cases h
    rfl
  | _ => first | cases h | exact congrArg (Option.map Prod.snd) h

/-! ## The invariant -/

/-- Device numbers fit, only the driver sets `b_uptodate`, callers give back references they
were given, and no count passes 255. -/
def Polite (s : System n Task) : Act n Task → Prop
  | .call _ (.want w) => w.Narrow
  | .call _ (.brelse (some b)) => 0 < s.mem.handed b
  | .step t => Room s.mem (s.pc t)
  | .setUptodate .. => False
  | _ => True

instance (m : Mem n) (p : Pc n) : Decidable (Room m p) := by
  unfold Room
  split <;> infer_instance

instance (s : System n Task) (a : Act n Task) : Decidable (Polite s a) :=
  match a with
  | .call _ (.want w) => inferInstanceAs (Decidable (w.dev.toNat ≤ 65535))
  | .call _ (.brelse (some b)) => inferInstanceAs (Decidable (0 < s.mem.handed b))
  | .step t => inferInstanceAs (Decidable (Room s.mem (s.pc t)))
  | .setUptodate .. => isFalse id
  | .call _ (.brelse none) | .call _ (.llRwBlock ..) | .go _ | .intr _ | .setDirt .. =>
    isTrue trivial

omit [DecidableEq Task] in
theorem Polite.owed {s : System n Task} {a : Act n Task} (h : Polite s a) :
    Owed s a ∧ HasRoom s a := by
  cases a with
  | call t op =>
    cases op with
    | brelse b =>
      cases b with
      | none => exact ⟨trivial, trivial⟩
      | some b => exact ⟨h, trivial⟩
    | _ => exact ⟨trivial, trivial⟩
  | step t => exact ⟨trivial, h⟩
  | _ => exact ⟨trivial, trivial⟩

omit [DecidableEq Task] in
theorem Polite.driverOnly {s : System n Task} {a : Act n Task} (h : Polite s a) :
    DriverOnly a := by
  cases a with
  | call t op =>
    cases op with
    | want w => exact h
    | _ => trivial
  | setUptodate b v => exact h
  | _ => trivial

structure Honest (s : System n Task) : Prop extends Current s where
  reads : ∀ t, (s.pc t).Reads
  counted : Counted s.mem s.pc
  readKey : ∀ t w b, (s.pc t).reading = some (w, b) → (s.mem.cache.bh b).key = w.key
  valid : ∀ t, Valid s.mem (s.pc t)

/-- A buffer somebody holds keeps its block. -/
theorem Honest.keeps_key {s s' : System n Task} {a : Act n Task} (h : Honest s)
    (hs : s.next mode a = some s') {t : Task} {b : Fin n} (hb : (s.pc t).holds = some b) :
    (s'.mem.cache.bh b).key = (s.mem.cache.bh b).key := by
  have hpos : 0 < counts s.mem b := h.counted.pos (o := t) hb
  have hcount : (s.mem.cache.bh b).bCount ≠ 0 := by
    intro h0
    rw [counts, h0] at hpos
    exact absurd hpos (by decide)
  obtain ⟨hdev, hblock⟩ := h.step_keeps_key hs (Or.inl hcount)
  rw [BufferHead.key, hdev, hblock]
  rfl

theorem reads_step {s s' : System n Task} {a : Act n Task} (hal : s.Alone)
    (h : ∀ t, (s.pc t).Reads) (hs : s.next mode a = some s') (t : Task) : (s'.pc t).Reads := by
  rcases System.pc_cases hal hs t with ⟨nx, _, hflow, hpc⟩ | ⟨op, _, _, hpc⟩ | ⟨hpc, _⟩ <;>
    rw [hpc]
  · exact hflow.reads (h t)
  · cases op with
    | want w => trivial
    | brelse b => cases b <;> trivial
    | llRwBlock rw b => trivial
  · exact h t

theorem honest_step {s s' : System n Task} {a : Act n Task} (h : Honest s)
    (hs : s.next mode a = some s') (hok : Polite s a) : Honest s' := by
  refine ⟨current_step h.toCurrent hs hok.driverOnly, reads_step h.alone h.reads hs,
    counted_step h.toSafe h.reads h.counted hs hok.owed.1 hok.owed.2, fun t w b hr => ?_,
    fun t => ?_⟩
  · rcases System.pc_cases h.alone hs t with ⟨nx, _, hflow, hpc⟩ | ⟨op, _, _, hpc⟩ | ⟨hpc, _⟩ <;>
      rw [hpc] at hr
    · rcases hflow.reading_cases hr with hr | hgot
      · rw [h.keeps_key hs (holds_of_reading hr), h.readKey t w b hr]
      · have hright := h.right t
        rw [hgot] at hright
        rw [h.keeps_key hs (t := t) (by rw [hgot]; rfl)]
        exact hright
    · cases op with
      | want v => cases hr
      | brelse x => cases x <;> cases hr
      | llRwBlock rw x => cases hr
    · rw [h.keeps_key hs (holds_of_reading hr), h.readKey t w b hr]
  · rcases System.pc_cases h.alone hs t with ⟨nx, _, hflow, hpc⟩ | ⟨op, _, _, hpc⟩ |
      ⟨hpc, hrest | ⟨ok, _, hm⟩⟩ <;> rw [hpc]
    · exact hflow.valid_ret (h.ready t) (h.right t) (h.readKey t) (h.valid t)
    · cases op with
      | want w => trivial
      | brelse b => cases b <;> trivial
      | llRwBlock rw b => trivial
    · exact valid_of_rest hrest
    · obtain ⟨req, hc⟩ := complete_cases hm
      obtain ⟨x, hx, hlock, _⟩ := h.completes hc
      exact (h.valid t).complete hc hx hlock

omit [DecidableEq Task] in
theorem honest_start [NeZero n] {s : System n Task} (h : Fresh s) : Honest s := by
  refine ⟨current_start h, fun t => ?_, fun b => ⟨∅, fun t => ?_, ?_⟩, fun t w b hr => ?_,
    fun t => valid_of_rest (Or.inl (h.idle t))⟩
  · rw [h.idle t]
    trivial
  · show t ∈ ∅ ↔ (s.pc t).holds = some b
    rw [h.idle t]
    simp [Pc.holds, Pc.reading]
  · obtain ⟨bufferEnd, blocknr, hcache⟩ := h.cache
    rw [h.handed b, counts, hcache]
    rfl
  · rw [h.idle t] at hr
    cases hr

/-! ## The result -/

/-- A call that returns gives its reference to `b` to the caller with the buffer, or drops
it and returns nothing. -/
def Settles (m m' : Mem n) (b : Fin n) : Option (Fin n) → Prop
  | some x => x = b ∧ m'.handed b = m.handed b + 1 ∧
      (m'.cache.bh b).bCount = (m.cache.bh b).bCount
  | none => m'.handed = m.handed ∧ (m.cache.bh b).bCount ≠ 0 ∧
      (m'.cache.bh b).bCount = (m.cache.bh b).bCount - 1

theorem Flow.settles {m m' : Mem n} {p : Pc n} {nx : Next n} (h : Flow mode m p m' nx)
    {w : Want} {o : Option (Fin n)} (hret : nx.pc = .ret w o) (hbread : w.kind = .bread) :
    ∃ b, p.holds = some b ∧ Settles m m' b o := by
  have hout : ∀ b, (m.handOut b).handed b = m.handed b + 1 :=
    fun b => Function.update_self ..
  cases h with
  | locked hp _ =>
    have hpc : p = .ret w o := hret
    subst hpc
    cases hp
  | miss hk =>
    cases hret
    rw [hbread] at hk
    cases hk
  | found _ _ hk =>
    cases hret
    rw [hbread] at hk
    cases hk
  | valid =>
    cases hret
    exact ⟨_, rfl, rfl, hout _, rfl⟩
  | readOk =>
    cases hret
    exact ⟨_, rfl, rfl, hout _, rfl⟩
  | dropped hcount =>
    cases hret
    exact ⟨_, rfl, rfl, hcount, by rw [Mem.unhold, Mem.store_self]⟩
  | _ => cases hret

/-- In every state of every run a filled slot is for the block of a locked buffer.  As long
as only the driver sets `b_uptodate`, a set flag speaks of the last completion for the
block, and in a polite run `bread` returns a buffer of its block after a successful
completion, and its reference goes where its result says. -/
theorem no_stale_completion [NeZero n] {s₀ s : System n Task} {as : List (Act n Task)}
    (h₀ : Fresh s₀) (h : Run (System.Step mode) s₀ as s) :
    (∀ r, (s.mem.dev.request r).idle = false → ∃ b, (s.mem.dev.request r).bh = some b ∧
      (s.mem.cache.bh b).bLock ≠ 0 ∧
      (s.mem.dev.request r).dev = (s.mem.cache.bh b).bDev.zeroExtend 32 ∧
      (s.mem.dev.request r).sector = (s.mem.cache.bh b).bBlocknr * 2) ∧
    (Run (Guarded (fun _ a => DriverOnly a) (System.Step mode)) s₀ as s →
      ∀ b, (s.mem.cache.bh b).bUptodate ≠ 0 →
        s.mem.last (s.mem.cache.bh b).key = some true) ∧
    (Run (Guarded Polite (System.Step mode)) s₀ as s →
      (∀ t w b, s.pc t = .ret w (some b) → w.kind = .bread →
        (s.mem.cache.bh b).key = (w.dev, w.block) ∧ s.mem.last (w.dev, w.block) = some true) ∧
      (∀ b, ∃ S : Finset Task, (∀ t, t ∈ S ↔ (s.pc t).holds = some b) ∧
        (s.mem.cache.bh b).bCount.toNat = s.mem.handed b + S.card) ∧
      ∀ t s' w o, System.Step mode s (.step t) s' → s'.pc t = .ret w o → w.kind = .bread →
        ∃ b, (s.pc t).holds = some b ∧ Settles s.mem s'.mem b o) := by
  refine ⟨fun r hr => ?_, fun hd b hb => ?_, fun hp => ⟨fun t w b hpc hbread => ?_, ?_,
    fun t s' w o hs hret hbread => ?_⟩⟩
  · have hsealed := sealed_run h₀ h
    obtain ⟨b, hb, hdev, hsector⟩ := hsealed.slot r hr
    refine ⟨b, hb, ?_, hdev, hsector⟩
    rw [hsealed.slot_locked hr hb]
    decide
  · have hcurrent : Current s := hd.invariant (current_start h₀) fun _ _ _ ha hs =>
      current_step ha hs.2 hs.1
    exact (hcurrent.uptodate b hb).2
  · have hhonest : Honest s := hp.invariant (honest_start h₀) fun _ _ _ ha hs =>
      honest_step ha hs.2 hs.1
    have hvalid := hhonest.valid t
    rw [hpc] at hvalid
    obtain ⟨hkey, hup, _⟩ := hvalid hbread
    have hlast := (hhonest.uptodate b hup).2
    rw [hkey] at hlast
    exact ⟨hkey, hlast⟩
  · have hhonest : Honest s := hp.invariant (honest_start h₀) fun _ _ _ ha hs =>
      honest_step ha hs.2 hs.1
    exact hhonest.counted
  · obtain ⟨_, m, nx, hflow, rfl⟩ := System.step_flow hs
    rw [System.settle_pc, Function.update_self] at hret
    rw [System.settle_mem]
    exact hflow.settles hret hbread

/-! ## Reads that come back for another block

There is one buffer, and task 0 reads block 5 of device 0x301.  The interrupt comes, and
before task 0 runs again, task 1 reads another block.  The buffer is locked or counted all
the time unless somebody takes the reference of task 0 away: a call of `brelse` for it, or
255 more references, with which the count comes round to 0. -/

namespace OtherBlock

def start : System 1 (Fin 2) := boot 0x200000 fun _ => 0

def final (as : List (Act 1 (Fin 2))) : System 1 (Fin 2) :=
  (replay (System.next .linking) start as).getD start

def readActs (t : Fin 2) (dev block : U32) : List (Act 1 (Fin 2)) :=
  .call t (.want ⟨.bread, dev, block⟩) :: List.replicate 12 (.step t) ++ [.intr true]

def alone : List (Act 1 (Fin 2)) := readActs 0 0x301 5 ++ [.go 0, .step 0]

def wide : List (Act 1 (Fin 2)) := readActs 0 0x10301 5 ++ [.go 0, .step 0]

def released : List (Act 1 (Fin 2)) :=
  readActs 0 0x301 5 ++ [.call 1 (.brelse (some 0)), .step 1] ++ readActs 1 0x302 9 ++
    [.go 0, .step 0]

def getblkActs : List (Act 1 (Fin 2)) :=
  .call 1 (.want ⟨.getblk, 0x301, 5⟩) :: List.replicate 4 (.step 1)

def overflown : List (Act 1 (Fin 2)) :=
  readActs 0 0x301 5 ++ (List.replicate 255 getblkActs).flatten ++ readActs 1 0x302 9 ++
    [.go 0, .step 0]

def setsUptodate : Act 1 (Fin 2) → Bool
  | .setUptodate .. => true
  | _ => false

def givesBack : Act 1 (Fin 2) → Bool
  | .call _ (.brelse _) => true
  | _ => false

/-- `bread` returns the block it was asked for. -/
def Asked (s : System 1 (Fin 2)) : Prop :=
  ∀ t w b, s.pc t = .ret w (some b) → w.kind = .bread → (s.mem.cache.bh b).key = (w.dev, w.block)

theorem not_asked {as : List (Act 1 (Fin 2))} {w : Want} (hw : w.kind = .bread)
    (h : (final as).pc 0 = .ret w (some 0) ∧ ((final as).mem.cache.bh 0).key ≠ (w.dev, w.block)) :
    ¬ Asked (final as) :=
  fun hasked => h.2 (hasked 0 w 0 h.1 hw)

end OtherBlock

theorem no_stale_completion_alone :
    ((OtherBlock.final OtherBlock.alone).mem.cache.bh 0).key = (0x301, 5) ∧
      (OtherBlock.final OtherBlock.alone).mem.last (0x301, 5) = some true := by
  have hpolite : Run (Guarded Polite (System.Step .linking)) OtherBlock.start OtherBlock.alone
      (OtherBlock.final OtherBlock.alone) := run_guarded_replay (by decide +kernel)
  exact ((no_stale_completion (fresh_boot 0x200000 fun _ => 0) hpolite.of_guarded).2.2 hpolite).1
    0 ⟨.bread, 0x301, 5⟩ 0 (by decide +kernel) rfl

theorem bread_returns_another_block :
    (¬ ∀ (s₀ s : System 1 (Fin 2)) (as : List (Act 1 (Fin 2))), Fresh s₀ →
      Run (Guarded (fun _ a => OtherBlock.setsUptodate a = false) (System.Step .linking))
        s₀ as s →
      OtherBlock.Asked s) ∧
    (¬ ∀ (s₀ s : System 1 (Fin 2)) (as : List (Act 1 (Fin 2))), Fresh s₀ →
      Run (Guarded (fun _ a => DriverOnly a) (System.Step .linking)) s₀ as s →
      OtherBlock.Asked s) ∧
    ¬ ∀ (s₀ s : System 1 (Fin 2)) (as : List (Act 1 (Fin 2))), Fresh s₀ →
      Run (Guarded (fun _ a => DriverOnly a ∧ OtherBlock.givesBack a = false)
        (System.Step .linking)) s₀ as s →
      OtherBlock.Asked s := by
  have hfresh : Fresh OtherBlock.start := fresh_boot 0x200000 fun _ => 0
  refine ⟨fun h => ?_, fun h => ?_, fun h => ?_⟩
  · have hrun : Run (System.Step .linking) OtherBlock.start OtherBlock.wide
        (OtherBlock.final OtherBlock.wide) := run_replay (by decide +kernel)
    exact OtherBlock.not_asked (w := ⟨.bread, 0x10301, 5⟩) rfl (by decide +kernel)
      (h _ _ _ hfresh (hrun.guard (by decide)))
  · have hrun : Run (System.Step .linking) OtherBlock.start OtherBlock.released
        (OtherBlock.final OtherBlock.released) := run_replay (by decide +kernel)
    exact OtherBlock.not_asked (w := ⟨.bread, 0x301, 5⟩) rfl (by decide +kernel)
      (h _ _ _ hfresh (hrun.guard (by decide)))
  · have hrun : Run (System.Step .linking) OtherBlock.start OtherBlock.overflown
        (OtherBlock.final OtherBlock.overflown) := run_replay (by decide +kernel)
    exact OtherBlock.not_asked (w := ⟨.bread, 0x301, 5⟩) rfl (by decide +kernel)
      (h _ _ _ hfresh (hrun.guard (by decide +kernel)))

end Io
end CherryOS
