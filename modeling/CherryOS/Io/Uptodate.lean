import CherryOS.Io.Locks

/-!
# What the flag says

`b_uptodate` is set by the completion of the request for the block the buffer still has,
and a claim clears it.  So as long as a block has one buffer, a set flag speaks of the last
completion for the block.
-/

namespace CherryOS
namespace Io

open Kernel (U32)
open Fs (BufferHead Cache)
open Driver
open Lib

variable {n : Nat} {Task : Type} [DecidableEq Task] {mode : AddMode}

/-- The calls name devices that fit, and nobody but the driver sets `b_uptodate`. -/
def DriverOnly : Act n Task → Prop
  | .call _ (.want w) => w.Narrow
  | .setUptodate .. => False
  | _ => True

instance (a : Act n Task) : Decidable (DriverOnly a) :=
  match a with
  | .call _ (.want w) => inferInstanceAs (Decidable (w.dev.toNat ≤ 65535))
  | .setUptodate .. => isFalse id
  | .call _ (.brelse _) | .call _ (.llRwBlock ..) | .go _ | .step _ | .intr _ | .setDirt .. =>
    isTrue trivial

omit [DecidableEq Task] in
theorem DriverOnly.narrow {a : Act n Task} (h : DriverOnly a) : NarrowCall a := by
  cases a with
  | call t op =>
    cases op with
    | want w => exact h
    | _ => trivial
  | _ => trivial

/-- An up-to-date buffer has a device, and the last completion for its block succeeded. -/
def Uptodate (m : Mem n) : Prop :=
  ∀ b, (m.cache.bh b).bUptodate ≠ 0 →
    (m.cache.bh b).bDev ≠ 0 ∧ m.last (m.cache.bh b).key = some true

structure Current (s : System n Task) : Prop extends Sealed s, Keyed s where
  uptodate : Uptodate s.mem

/-- Stores that leave `b_uptodate` alone. -/
theorem Uptodate.congr {m m' : Mem n} (h : Uptodate m) (hs : m.cache.SameLinks m'.cache)
    (hup : ∀ b, (m'.cache.bh b).bUptodate = (m.cache.bh b).bUptodate)
    (hlast : m'.last = m.last) : Uptodate m' := by
  intro b hb
  rw [hup] at hb
  rw [(hs.bh b).bDev, (hs.bh b).key, hlast]
  exact h b hb

theorem Uptodate.claim {m : Mem n} {c : Cache n} {b : Fin n} {dev block : U32}
    (h : Uptodate m) (hcl : m.cache.Claimed b dev block c) : Uptodate { m with cache := c } := by
  intro x hx
  by_cases hxb : x = b
  · subst hxb
    exact absurd hcl.self.bUptodate hx
  · have ho := hcl.other x hxb
    show (c.bh x).bDev ≠ 0 ∧ m.last (c.bh x).key = some true
    rw [ho.bDev, ho.key]
    exact h x (ho.bUptodate ▸ hx)

/-- The completion is the last one for its block, which no other buffer has. -/
theorem Uptodate.complete {m m' : Mem n} {ok : Bool} {req : Slot} {b : Fin n}
    (h : Uptodate m) (hd : Distinct m.cache) (hc : Completed m ok req m')
    (hb : (m.dev.request req).bh = some b) (hdev : (m.cache.bh b).bDev ≠ 0) : Uptodate m' := by
  have hs := hc.unlocks.links
  have hlast : m'.last = Function.update m.last (m.cache.bh b).key (some ok) := by
    rw [hc.last, hb]
  have hup : ∀ x, (m'.cache.bh x).bUptodate =
      if x = b then (if ok then 1 else 0) else (m.cache.bh x).bUptodate := by
    intro x
    rw [hc.cache, hb]
    by_cases hx : x = b
    · subst hx
      rw [Cache.store_self, if_pos rfl]
    · rw [Cache.store_other _ hx, if_neg hx]
  intro x hx
  rw [(hs.bh x).bDev, (hs.bh x).key, hlast]
  rw [hup] at hx
  by_cases hxb : x = b
  · subst hxb
    rw [if_pos rfl] at hx
    cases ok with
    | true => exact ⟨hdev, by rw [Function.update_self]⟩
    | false => exact absurd rfl hx
  · rw [if_neg hxb] at hx
    obtain ⟨hxdev, hxlast⟩ := h x hx
    have hkey : (m.cache.bh x).key ≠ (m.cache.bh b).key := fun e => hxb (hd x b hxdev e)
    exact ⟨hxdev, by rw [Function.update_of_ne hkey, hxlast]⟩

theorem Flow.uptodate {m m' : Mem n} {p : Pc n} {nx : Next n} (h : Flow mode m p m' nx) :
    (∃ (w : Want) (b : Fin n) (c : Cache n), m.cache.claim b w.dev w.block = some c ∧
        m' = { m with cache := c }) ∨
      m.cache.SameLinks m'.cache ∧
        (∀ b, (m'.cache.bh b).bUptodate = (m.cache.bh b).bUptodate) ∧ m'.last = m.last := by
  rcases h.sameLinks_or_claim with hs | ⟨w, b, c, _, _, hc, hm, _⟩
  swap
  · exact Or.inl ⟨w, b, c, hc, hm⟩
  have hstore : ∀ b (f : BufferHead n → BufferHead n), (∀ h, (f h).bUptodate = h.bUptodate) →
      ∀ x, ((m.store b f).cache.bh x).bUptodate = (m.cache.bh x).bUptodate :=
    fun b f hf x => Mem.store_keeps (g := fun h => h.bUptodate) hf m b x
  cases h with
  | hit => exact Or.inr ⟨hs, hstore _ _ fun _ => rfl, rfl⟩
  | lost => exact Or.inr ⟨hs, hstore _ _ fun _ => rfl, rfl⟩
  | lock => exact Or.inr ⟨hs, hstore _ _ fun _ => rfl, rfl⟩
  | released => exact Or.inr ⟨hs, hstore _ _ fun _ => rfl, rfl⟩
  | dropped => exact Or.inr ⟨hs, hstore _ _ fun _ => rfl, rfl⟩
  | claimed _ hc => exact Or.inl ⟨_, _, _, hc, rfl⟩
  | fill hreq =>
    refine Or.inr ⟨hs, fun x => ?_, ?_⟩
    · rw [request_cache hreq, Cache.store_bh]
      split <;> rfl
    · obtain ⟨d, _, rfl⟩ := Option.map_eq_some_iff.mp hreq
      rfl
  | _ => exact Or.inr ⟨hs, fun _ => rfl, rfl⟩

theorem uptodate_step {s s' : System n Task} {a : Act n Task} (h : Current s)
    (hs : s.next mode a = some s') (hok : DriverOnly a) : Uptodate s'.mem := by
  cases a with
  | call t op =>
    obtain ⟨_, _, rfl⟩ := System.call_eq hs
    have hcache := (System.call_cache s t op).1
    refine h.uptodate.congr (hcache ▸ .refl _) (fun b => by rw [hcache]) ?_
    cases op with
    | want w => rfl
    | brelse b => cases b <;> rfl
    | llRwBlock rw b => rfl
  | go t =>
    obtain ⟨_, _, rfl⟩ := System.go_eq hs
    exact h.uptodate
  | step t =>
    obtain ⟨_, m, nx, hflow, rfl⟩ := System.step_flow hs
    rw [System.settle_mem]
    rcases hflow.uptodate with ⟨w, b, c, hc, rfl⟩ | ⟨hsame, hup, hlast⟩
    · obtain ⟨c', hc', hcl, _⟩ := h.wellFormed.claim b w.dev w.block
      rw [hc, Option.some.injEq] at hc'
      subst hc'
      exact h.uptodate.claim hcl
    · exact h.uptodate.congr hsame hup hlast
  | intr ok =>
    obtain ⟨m, hm, rfl⟩ := System.intr_eq hs
    obtain ⟨req, hc⟩ := complete_cases hm
    obtain ⟨b, hb, _, hdev⟩ := h.completes hc
    exact h.uptodate.complete h.distinct hc hb hdev
  | setDirt b v =>
    rw [System.setDirt_eq hs]
    refine h.uptodate.congr (sameLinks_store _ _ fun _ => ⟨rfl, rfl, rfl, rfl, rfl, rfl⟩)
      (fun x => ?_) rfl
    exact Mem.store_keeps (f := fun h => { h with bDirt := v }) (g := fun h => h.bUptodate)
      (fun _ => rfl) s.mem b x
  | setUptodate b v => cases hok

theorem current_step {s s' : System n Task} {a : Act n Task} (h : Current s)
    (hs : s.next mode a = some s') (hok : DriverOnly a) : Current s' := by
  have hsealed := sealed_step h.toSealed hs
  have hkeyed := keyed_step h.toKeyed hs hok.narrow
  exact ⟨hsealed, hkeyed.narrow, hkeyed.distinct, hkeyed.right, uptodate_step h hs hok⟩

omit [DecidableEq Task] in
theorem current_start [NeZero n] {s : System n Task} (h : Fresh s) : Current s := by
  have hkeyed := keyed_start h.toBooted
  refine ⟨sealed_start h, hkeyed.narrow, hkeyed.distinct, hkeyed.right, fun b hb => ?_⟩
  obtain ⟨bufferEnd, blocknr, hcache⟩ := h.cache
  rw [hcache] at hb
  exact absurd rfl hb

end Io
end CherryOS
