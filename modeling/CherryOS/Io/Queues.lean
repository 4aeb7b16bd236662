import CherryOS.Io.Flow

/-!
# The request queues

`Queued m queue` says that nothing is lost: `queue k` is the list behind the pointer
`req_q` of device kind `k`, it holds the filled slots of that kind, each once, and what
was queued is what was retired followed by what is still there.

A completion keeps it.  `add_request` keeps it when the queue is not empty.  On an empty
queue it leaves the slot filled and the queue empty, and nothing will ever retire it.
-/

namespace CherryOS
namespace Io

open Kernel (U32)
open Fs (BufferHead Cache)
open Driver
open Lib

variable {n : Nat} {Task : Type} [DecidableEq Task] {mode : AddMode}

/-- Slot `r` is filled with a request for device kind `k`. -/
def FilledFor (d : BlkDev n) (r : Slot) (k : Major) : Prop :=
  (d.request r).idle = false ∧ MAJOR (d.request r).dev = .ofNat 32 k.val

structure Queued (m : Mem n) (queue : Major → List Slot) : Prop where
  chain : ∀ k, Chain (fun r => (m.dev.request r).next) (m.dev.reqQ k) (queue k)
  mem : ∀ k r, r ∈ queue k ↔ FilledFor m.dev r k
  home : ∀ r, (m.dev.request r).idle = false → ∃ k, FilledFor m.dev r k
  order : ∀ k, m.added k = m.retired k ++ queue k

def NothingLost (m : Mem n) : Prop := ∃ queue, Queued m queue

theorem major_injective {j k : Major} (h : BitVec.ofNat 32 j.val = BitVec.ofNat 32 k.val) :
    j = k := by
  have hj := j.isLt
  have hk := k.isLt
  have hn := congrArg BitVec.toNat h
  rw [BitVec.toNat_ofNat, BitVec.toNat_ofNat, Nat.mod_eq_of_lt, Nat.mod_eq_of_lt] at hn
  · exact Fin.ext hn
  · unfold BLK_DEV_KINDS at hk
    omega
  · unfold BLK_DEV_KINDS at hj
    omega

theorem FilledFor.unique {d : BlkDev n} {r : Slot} {j k : Major} (hj : FilledFor d r j)
    (hk : FilledFor d r k) : j = k := major_injective (hj.2.symm.trans hk.2)

/-- A queue depends on the table and the history alone. -/
theorem Queued.congr {m m' : Mem n} {queue : Major → List Slot} (h : Queued m queue)
    (hdev : m'.dev = m.dev) (hadded : m'.added = m.added) (hretired : m'.retired = m.retired) :
    Queued m' queue := by
  obtain ⟨hchain, hmem, hhome, horder⟩ := h
  refine ⟨?_, ?_, ?_, ?_⟩
  · rw [hdev]
    exact hchain
  · rw [hdev]
    exact hmem
  · rw [hdev]
    exact hhome
  · rw [hadded, hretired]
    exact horder

/-! ## Adding a request -/

/-- The table after `make_request` has filled slot `req` and `add_request` has linked it,
or has not. -/
structure Requested (m : Mem n) (b : Fin n) (k : Major) (req : Slot) (m' : Mem n) : Prop where
  dev : (m'.dev.request req).dev = (m.cache.bh b).bDev.zeroExtend 32
  bh : (m'.dev.request req).bh = some b
  sector : (m'.dev.request req).sector = (m.cache.bh b).bBlocknr * 2
  other : ∀ r, r ≠ req →
    { m'.dev.request r with next := none } = { m.dev.request r with next := none }
  added : m'.added = Function.update m.added k (m.added k ++ [req])
  retired : m'.retired = m.retired

theorem request_spec {m m' : Mem n} {rw : U32} {b : Fin n} {k : Major} {req : Slot}
    (h : m.request mode rw b k req = some m') : Requested m b k req m' := by
  obtain ⟨d, hd, rfl⟩ := Option.map_eq_some_iff.mp h
  have hreq := (BlkDev.addRequest_request hd).2
  have hself := hreq req
  rw [BlkDev.fill, BlkDev.set_request, if_pos rfl] at hself
  refine ⟨congrArg BlkRequest.dev hself, congrArg BlkRequest.bh hself,
    congrArg BlkRequest.sector hself, fun r hr => ?_, rfl, rfl⟩
  have hother := hreq r
  rw [BlkDev.fill, BlkDev.set_request, if_neg hr] at hother
  exact hother

theorem Requested.other_dev {m m' : Mem n} {b : Fin n} {k : Major} {req r : Slot}
    (h : Requested m b k req m') (hr : r ≠ req) :
    (m'.dev.request r).dev = (m.dev.request r).dev := by
  have hdev := congrArg BlkRequest.dev (h.other r hr)
  exact hdev

theorem Requested.filledFor {m m' : Mem n} {b : Fin n} {k : Major} {req : Slot}
    (h : Requested m b k req m')
    (hk : MAJOR ((m.cache.bh b).bDev.zeroExtend 32) = .ofNat 32 k.val)
    (hreq : (m.dev.request req).idle = true) (r : Slot) (j : Major) :
    FilledFor m'.dev r j ↔ (r = req ∧ j = k) ∨ FilledFor m.dev r j := by
  by_cases hr : r = req
  · subst hr
    have hfilled : (m'.dev.request r).idle = false := by
      rw [BlkRequest.idle, h.dev]
      exact slt_zeroExtend _
    have hno : ¬ FilledFor m.dev r j := fun hf => by
      rw [hf.1] at hreq
      cases hreq
    constructor
    · intro hf
      left
      refine ⟨rfl, major_injective ?_⟩
      rw [← hf.2, h.dev, hk]
    · rintro (⟨_, rfl⟩ | hf)
      · exact ⟨hfilled, by rw [h.dev, hk]⟩
      · exact absurd hf hno
  · have hdev := h.other_dev hr
    simp only [FilledFor, BlkRequest.idle, hdev, hr, false_and, false_or]

/-- An idle slot is on no queue. -/
theorem Queued.idle_not_mem {m : Mem n} {queue : Major → List Slot} (h : Queued m queue)
    {r : Slot} (hr : (m.dev.request r).idle = true) (k : Major) : r ∉ queue k := by
  intro hmem
  rw [((h.mem k r).mp hmem).1] at hr
  cases hr

theorem request_chain {m m' : Mem n} {rw : U32} {b : Fin n} {k : Major} {req : Slot}
    {queue : Major → List Slot} (h : m.request mode rw b k req = some m')
    (hq : Queued m queue) (hreq : (m.dev.request req).idle = true)
    (hlink : mode = .linking ∨ m.dev.reqQ k ≠ none) (j : Major) :
    Chain (fun r => (m'.dev.request r).next) (m'.dev.reqQ j)
      (Function.update queue k (queue k ++ [req]) j) := by
  obtain ⟨d, hd, rfl⟩ := Option.map_eq_some_iff.mp h
  obtain ⟨d₁, h₁⟩ : ∃ d₁, d₁ = (m.dev.fill req rw b (m.cache.bh b)).set req
      fun r => { r with next := none } := ⟨_, rfl⟩
  have hnext₁ : ∀ r, (d₁.request r).next = if r = req then none else (m.dev.request r).next := by
    intro r
    rw [h₁, BlkDev.set_request, BlkDev.fill, BlkDev.set_request]
    split <;> rfl
  have hqueue₁ : d₁.reqQ = m.dev.reqQ := by rw [h₁, BlkDev.set_reqQ, BlkDev.fill_reqQ]
  have hchain₁ : ∀ i, Chain (fun r => (d₁.request r).next) (m.dev.reqQ i) (queue i) := by
    intro i
    refine (hq.chain i).congr fun r hr => ?_
    rw [hnext₁, if_neg]
    rintro rfl
    exact hq.idle_not_mem hreq i hr
  simp only [BlkDev.addRequest, ← h₁, hqueue₁] at hd
  cases hk : m.dev.reqQ k with
  | none =>
    rw [hk] at hd
    have hlinking : mode = .linking := hlink.resolve_right fun hne => hne hk
    subst hlinking
    cases hd
    show Chain (fun r => (d₁.request r).next) (Function.update m.dev.reqQ k (some req) j) _
    have hnil : queue k = [] := (hk ▸ hq.chain k).eq_nil
    by_cases hj : j = k
    · subst hj
      rw [Function.update_self, Function.update_self, hnil, List.nil_append]
      exact Chain.single (by rw [hnext₁, if_pos rfl])
    · rw [Function.update_of_ne hj, Function.update_of_ne hj]
      exact hchain₁ j
  | some q =>
    have hlen : (queue k).length ≤ NUMBER_OF_REQUESTS := by
      simpa using (hq.chain k).nodup.length_le_card
    obtain ⟨l, hl⟩ := (hk ▸ hq.chain k).exists_cons
    obtain ⟨tmp, htmp⟩ : ∃ tmp, (queue k).getLast? = some tmp := by
      rw [hl]
      exact ⟨_, List.getLast?_cons⟩
    have hsearch : search (fun r => (d₁.request r).next)
        (fun r => decide ((d₁.request r).next = none)) NUMBER_OF_REQUESTS (some q) =
          some (some tmp) := by
      have hc := hk ▸ hchain₁ k
      rw [hc.search_eq hlen, hc.find?_last, htmp]
    simp only [hk, hsearch, Option.some.injEq] at hd
    subst hd
    show Chain (fun r => ((d₁.set tmp fun r => { r with next := some req }).request r).next)
      (d₁.reqQ j) _
    have hnext : ∀ r, ((d₁.set tmp fun r => { r with next := some req }).request r).next =
        if r = tmp then some req else (d₁.request r).next := by
      intro r
      rw [BlkDev.set_request]
      split <;> rfl
    have htmpk : tmp ∈ queue k := List.mem_of_getLast? htmp
    rw [hqueue₁]
    by_cases hj : j = k
    · subst hj
      rw [Function.update_self]
      refine (hchain₁ j).concat htmp (hq.idle_not_mem hreq j) (fun r _ => hnext r) ?_
      rw [hnext, if_neg, hnext₁, if_pos rfl]
      rintro rfl
      exact hq.idle_not_mem hreq j htmpk
    · rw [Function.update_of_ne hj]
      refine (hchain₁ j).congr fun r hr => ?_
      rw [hnext, if_neg]
      rintro rfl
      exact hj (((hq.mem j r).mp hr).unique ((hq.mem k r).mp htmpk))

theorem Queued.request {m m' : Mem n} {rw : U32} {b : Fin n} {k : Major} {req : Slot}
    {queue : Major → List Slot} (hq : Queued m queue)
    (h : m.request mode rw b k req = some m')
    (hk : MAJOR ((m.cache.bh b).bDev.zeroExtend 32) = .ofNat 32 k.val)
    (hreq : (m.dev.request req).idle = true)
    (hlink : mode = .linking ∨ m.dev.reqQ k ≠ none) :
    Queued m' (Function.update queue k (queue k ++ [req])) := by
  have hspec := request_spec h
  have hfilled := hspec.filledFor hk hreq
  refine ⟨request_chain h hq hreq hlink, fun j r => ?_, fun r hr => ?_, fun j => ?_⟩
  · rw [hfilled]
    by_cases hj : j = k
    · subst hj
      rw [Function.update_self, List.mem_append, List.mem_singleton, hq.mem]
      simp [or_comm]
    · rw [Function.update_of_ne hj, hq.mem]
      simp [hj]
  · by_cases hrr : r = req
    · exact ⟨k, (hfilled r k).mpr (Or.inl ⟨hrr, rfl⟩)⟩
    · rw [BlkRequest.idle, hspec.other_dev hrr] at hr
      obtain ⟨j, hj⟩ := hq.home r hr
      exact ⟨j, (hfilled r j).mpr (Or.inr hj)⟩
  · rw [hspec.added, hspec.retired]
    by_cases hj : j = k
    · subst hj
      rw [Function.update_self, Function.update_self, hq.order, List.append_assoc]
    · rw [Function.update_of_ne hj, Function.update_of_ne hj, hq.order]

/-- A filled slot while its device's queue is empty is lost. -/
theorem not_nothingLost {m : Mem n} {r : Slot} {k : Major} (hr : FilledFor m.dev r k)
    (hk : m.dev.reqQ k = none) : ¬ NothingLost m := by
  rintro ⟨queue, hq⟩
  have hmem : r ∈ queue k := (hq.mem k r).mpr hr
  have hnil : queue k = [] := (hk ▸ hq.chain k).eq_nil
  rw [hnil] at hmem
  cases hmem

/-- The slot that `add_request` gets while the queue is empty stays off it. -/
theorem lost_of_empty {m m' : Mem n} {rw : U32} {b : Fin n} {k : Major} {req : Slot}
    (h : m.request .asWritten rw b k req = some m')
    (hk : MAJOR ((m.cache.bh b).bDev.zeroExtend 32) = .ofNat 32 k.val)
    (hreq : (m.dev.request req).idle = true) (hempty : m.dev.reqQ k = none) :
    ¬ NothingLost m' := by
  have hfilled := ((request_spec h).filledFor hk hreq req k).mpr (Or.inl ⟨rfl, rfl⟩)
  obtain ⟨d, hd, rfl⟩ := Option.map_eq_some_iff.mp h
  have hqueue : d.reqQ k = none := by
    simp only [BlkDev.addRequest, BlkDev.set_reqQ, BlkDev.fill_reqQ, hempty,
      Option.some.injEq] at hd
    rw [← hd, BlkDev.set_reqQ, BlkDev.fill_reqQ, hempty]
  exact not_nothingLost hfilled hqueue

/-! ## Completing one -/

theorem Queued.complete {m m' : Mem n} {ok : Bool} {req : Slot} {queue : Major → List Slot}
    (hq : Queued m queue) (h : Completed m ok req m') :
    ∃ l, queue BLK_DEV_NUM_HD = req :: l ∧
      Queued m' (Function.update queue BLK_DEV_NUM_HD l) := by
  have hchain := hq.chain BLK_DEV_NUM_HD
  rw [h.head] at hchain
  obtain ⟨l, hl⟩ := hchain.exists_cons
  rw [hl] at hchain
  have hnext : ∀ r, (m'.dev.request r).next = (m.dev.request r).next := by
    intro r
    rw [h.dev, BlkDev.retire_request]
    split <;> rfl
  have hdev : ∀ r, (m'.dev.request r).dev = if r = req then -1 else (m.dev.request r).dev := by
    intro r
    rw [h.dev, BlkDev.retire_request]
    split <;> rfl
  have hqueue : m'.dev.reqQ =
      Function.update m.dev.reqQ BLK_DEV_NUM_HD (m.dev.request req).next := by
    rw [h.dev, ← hnext req, h.dev]
    rfl
  have hfilled : ∀ r k, FilledFor m'.dev r k ↔ r ≠ req ∧ FilledFor m.dev r k := by
    intro r k
    by_cases hr : r = req
    · subst hr
      simp [FilledFor, BlkRequest.idle, hdev]
    · simp [FilledFor, BlkRequest.idle, hdev, hr]
  refine ⟨l, hl, fun k => ?_, fun k r => ?_, fun r hr => ?_, fun k => ?_⟩
  · rw [hqueue, show (fun r => (m'.dev.request r).next) = fun r => (m.dev.request r).next from
      funext hnext]
    by_cases hk : k = BLK_DEV_NUM_HD
    · subst hk
      rw [Function.update_self, Function.update_self]
      exact hchain.tail
    · rw [Function.update_of_ne hk, Function.update_of_ne hk]
      exact hq.chain k
  · rw [hfilled]
    by_cases hk : k = BLK_DEV_NUM_HD
    · subst hk
      have hnot : req ∉ l := (List.nodup_cons.mp hchain.nodup).1
      rw [Function.update_self, ← hq.mem, hl, List.mem_cons]
      constructor
      · intro hr
        exact ⟨fun e => hnot (e ▸ hr), Or.inr hr⟩
      · rintro ⟨hne, hr⟩
        exact hr.resolve_left hne
    · rw [Function.update_of_ne hk, hq.mem]
      constructor
      · intro hf
        refine ⟨?_, hf⟩
        rintro rfl
        have hhd : r ∈ queue BLK_DEV_NUM_HD := by simp [hl]
        exact hk (hf.unique ((hq.mem _ r).mp hhd))
      · exact And.right
  · have hrr : r ≠ req := by
      rintro rfl
      simp [BlkRequest.idle, hdev] at hr
    rw [BlkRequest.idle, hdev, if_neg hrr] at hr
    obtain ⟨k, hk⟩ := hq.home r hr
    exact ⟨k, (hfilled r k).mpr ⟨hrr, hk⟩⟩
  · rw [h.added, h.retired]
    by_cases hk : k = BLK_DEV_NUM_HD
    · subst hk
      rw [Function.update_self, Function.update_self, hq.order, hl, List.append_assoc]
      rfl
    · rw [Function.update_of_ne hk, Function.update_of_ne hk, hq.order]

/-! ## Runs of `ll_rw_block` -/

/-- No call moves a buffer to another block: `ll_rw_block` and `brelse` are called. -/
def RwCall : Act n Task → Prop
  | .call _ (.want _) => False
  | _ => True

/-- `add_request` does not find the queue empty. -/
def Linked (s : System n Task) : Act n Task → Prop
  | .step t =>
    match s.pc t with
    | .fill _ _ _ k _ => s.mem.dev.reqQ k ≠ none
    | _ => True
  | _ => True

instance (a : Act n Task) : Decidable (RwCall a) :=
  match a with
  | .call _ (.want _) => isFalse id
  | .call _ (.brelse _) | .call _ (.llRwBlock ..) | .go _ | .step _ | .intr _ | .setDirt ..
  | .setUptodate .. => isTrue trivial

instance (s : System n Task) (a : Act n Task) : Decidable (Linked s a) := by
  unfold Linked
  split
  · split <;> infer_instance
  · infer_instance

/-- The buffer of a request and the device kind its queue was chosen by. -/
def Pc.target : Pc n → Option (Fin n × Major)
  | .lockWait _ _ b k | .findSlot _ _ b k _ | .slotWait _ _ b k | .fill _ _ b k _ => some (b, k)
  | _ => none

/-- The slot a task is about to fill is idle. -/
def Vacant (m : Mem n) : Pc n → Prop
  | .fill _ _ _ _ req => (m.dev.request req).idle = true
  | _ => True

structure Filed (s : System n Task) : Prop where
  alone : s.Alone
  kept : NothingLost s.mem
  noWant : ∀ t, (s.pc t).want = none
  target : ∀ t b k, (s.pc t).target = some (b, k) →
    MAJOR ((s.mem.cache.bh b).bDev.zeroExtend 32) = .ofNat 32 k.val
  vacant : ∀ t, Vacant s.mem (s.pc t)

omit [DecidableEq Task] in
theorem filed_start {s : System n Task} (h : s.Start) (hq : NothingLost s.mem) : Filed s := by
  refine ⟨h.alone, hq, fun t => ?_, fun t b k ht => ?_, fun t => ?_⟩
  · rw [h.idle t]
    rfl
  · rw [h.idle t] at ht
    cases ht
  · rw [h.idle t]
    trivial

theorem Flow.target {m m' : Mem n} {p : Pc n} {nx : Next n} (h : Flow mode m p m' nx)
    {b : Fin n} {k : Major} (ht : nx.pc.target = some (b, k)) :
    p.target = some (b, k) ∨ m'.cache = m.cache ∧
      MAJOR ((m.cache.bh b).bDev.zeroExtend 32) = .ofNat 32 k.val := by
  cases h with
  | enter hk =>
    cases ht
    exact Or.inr ⟨rfl, hk⟩
  | locked | lock | noSlot | busy | slot | retry => exact Or.inl ht
  | _ => cases ht

theorem Flow.vacant {m m' : Mem n} {p : Pc n} {nx : Next n} (h : Flow mode m p m' nx)
    (hp : Vacant m p) : Vacant m' nx.pc := by
  cases h with
  | locked => exact hp
  | slot hidle => exact hidle
  | _ => trivial

theorem Vacant.complete {m m' : Mem n} {p : Pc n} {ok : Bool} {req : Slot} (h : Vacant m p)
    (hc : Completed m ok req m') : Vacant m' p := by
  cases p with
  | fill caller rw b k r =>
    show (m'.dev.request r).idle = true
    rw [hc.dev, BlkDev.retire_request]
    split
    · exact idle_neg_one _
    · exact h
  | _ => trivial

theorem vacant_of_rest {m : Mem n} {p : Pc n} (h : p = .idle ∨ p.waits = true) :
    Vacant m p := by
  rcases h with rfl | h
  · trivial
  · cases p <;> trivial

theorem vacant_step {s s' : System n Task} {a : Act n Task} (hal : s.Alone)
    (h : ∀ t, Vacant s.mem (s.pc t)) (hs : s.next mode a = some s') (t : Task) :
    Vacant s'.mem (s'.pc t) := by
  rcases System.pc_cases hal hs t with ⟨nx, _, hflow, hpc⟩ | ⟨op, _, _, hpc⟩ |
    ⟨hpc, hrest | ⟨ok, _, hm⟩⟩ <;> rw [hpc]
  · exact hflow.vacant (h t)
  · cases op with
    | want w => trivial
    | brelse b => cases b <;> trivial
    | llRwBlock rw b => trivial
  · exact vacant_of_rest hrest
  · obtain ⟨req, hc⟩ := complete_cases hm
    exact (h t).complete hc

theorem Filed.sameLinks {s s' : System n Task} {a : Act n Task} (h : Filed s)
    (hs : s.next mode a = some s') : s.mem.cache.SameLinks s'.mem.cache := by
  rcases System.step_sameLinks_or_claim hs with hsame | ⟨t, w, b, c, _, _, hpc, _⟩
  · exact hsame
  · have hno := h.noWant t
    rw [hpc] at hno
    cases hno

/-- A step loses no request, unless it adds one to an empty queue. -/
theorem Filed.kept_step {s s' : System n Task} {a : Act n Task} (h : Filed s)
    (hs : s.next mode a = some s') (hlink : mode = .linking ∨ Linked s a) :
    NothingLost s'.mem := by
  obtain ⟨queue, hq⟩ := h.kept
  cases a with
  | call t op =>
    obtain ⟨_, _, rfl⟩ := System.call_eq hs
    refine ⟨queue, hq.congr (System.call_cache s t op).2 ?_ ?_⟩ <;>
      (cases op with
        | want w => rfl
        | brelse b => cases b <;> rfl
        | llRwBlock rw b => rfl)
  | go t =>
    obtain ⟨_, _, rfl⟩ := System.go_eq hs
    exact ⟨queue, hq⟩
  | step t =>
    obtain ⟨hrun, m, nx, hflow, rfl⟩ := System.step_flow hs
    rw [System.settle_mem]
    rcases hflow.dev_cases with ⟨hdev, hadded, hretired⟩ | ⟨caller, rw, b, k, req, hpc, hreq⟩
    · exact ⟨queue, hq.congr hdev hadded hretired⟩
    · have hvacant := h.vacant t
      have htarget := h.target t b k (by rw [hpc]; rfl)
      rw [hpc] at hvacant
      simp only [Linked, hpc] at hlink
      exact ⟨_, hq.request hreq htarget hvacant hlink⟩
  | intr ok =>
    obtain ⟨m, hm, rfl⟩ := System.intr_eq hs
    obtain ⟨req, hc⟩ := complete_cases hm
    obtain ⟨l, _, hq'⟩ := hq.complete hc
    exact ⟨_, hq'⟩
  | setDirt b v =>
    rw [System.setDirt_eq hs]
    exact ⟨queue, hq.congr rfl rfl rfl⟩
  | setUptodate b v =>
    rw [System.setUptodate_eq hs]
    exact ⟨queue, hq.congr rfl rfl rfl⟩

theorem filed_step {s s' : System n Task} {a : Act n Task} (h : Filed s)
    (hs : s.next mode a = some s') (hrw : RwCall a) (hlink : mode = .linking ∨ Linked s a) :
    Filed s' := by
  have hcases := System.pc_cases h.alone hs
  have hsame := h.sameLinks hs
  refine ⟨System.alone_step h.alone hs, h.kept_step hs hlink, fun t => ?_, fun t b k ht => ?_,
    vacant_step h.alone h.vacant hs⟩
  · rcases hcases t with ⟨nx, _, hflow, hpc⟩ | ⟨op, rfl, _, hpc⟩ | ⟨hpc, _⟩
    · cases hw : (s'.pc t).want with
      | none => rfl
      | some w =>
        rw [hpc] at hw
        have hno := h.noWant t
        rw [hflow.want_eq hw] at hno
        cases hno
    · rw [hpc]
      cases op with
      | want w => cases hrw
      | brelse b => cases b <;> rfl
      | llRwBlock rw b => rfl
    · rw [hpc]
      exact h.noWant t
  · rw [(hsame.bh b).bDev]
    rcases hcases t with ⟨nx, _, hflow, hpc⟩ | ⟨op, rfl, _, hpc⟩ | ⟨hpc, _⟩ <;> rw [hpc] at ht
    · rcases hflow.target ht with ht | ⟨_, hk⟩
      · exact h.target t b k ht
      · exact hk
    · cases op with
      | want w => cases ht
      | brelse b => cases b <;> cases ht
      | llRwBlock rw b => cases ht
    · exact h.target t b k ht

/-- A slot is lost by the step that adds it to an empty queue. -/
theorem Filed.lost_step {s s' : System n Task} {a : Act n Task} (h : Filed s)
    (hs : s.next .asWritten a = some s') (hbad : ¬ Linked s a) : ¬ NothingLost s'.mem := by
  cases a with
  | step t =>
    obtain ⟨hrun, m, nx, hflow, rfl⟩ := System.step_flow hs
    rw [System.settle_mem]
    simp only [Linked] at hbad
    split at hbad
    · rename_i caller rw b k req hpc
      have hvacant := h.vacant t
      have htarget := h.target t b k (by rw [hpc]; rfl)
      rw [hpc] at hvacant hflow
      cases hflow with
      | locked hb _ => cases hb
      | fill hreq => exact lost_of_empty hreq htarget hvacant (not_not.mp hbad)
    · exact absurd trivial hbad
  | call t op => exact absurd trivial hbad
  | go t => exact absurd trivial hbad
  | intr ok => exact absurd trivial hbad
  | setDirt b v => exact absurd trivial hbad
  | setUptodate b v => exact absurd trivial hbad

/-- From a state in which nothing is lost, a run loses no request as long as `add_request`
never finds a queue empty, and the first time it does it loses one. -/
theorem request_lost_iff {s₀ s : System n Task} {as : List (Act n Task)} (h₀ : s₀.Start)
    (hq : NothingLost s₀.mem)
    (h : Run (Guarded (fun s a => RwCall a ∧ Linked s a) (System.Step .asWritten)) s₀ as s) :
    NothingLost s.mem ∧ ∀ a s', RwCall a → System.Step .asWritten s a s' →
      (NothingLost s'.mem ↔ Linked s a) := by
  have hf : Filed s := h.invariant (filed_start h₀ hq) fun _ _ _ ha hs =>
    filed_step ha hs.2 hs.1.1 (Or.inr hs.1.2)
  refine ⟨hf.kept, fun a s' _ hs => ⟨fun hkept => ?_, fun hl => hf.kept_step hs (Or.inr hl)⟩⟩
  by_contra hbad
  exact hf.lost_step hs hbad hkept

/-- With the empty queue linked too, no run loses a request. -/
theorem no_request_lost_linking {s₀ s : System n Task} {as : List (Act n Task)} (h₀ : s₀.Start)
    (hq : NothingLost s₀.mem)
    (h : Run (Guarded (fun _ a => RwCall a) (System.Step .linking)) s₀ as s) :
    NothingLost s.mem := by
  have hf : Filed s := h.invariant (filed_start h₀ hq) fun _ _ _ ha hs =>
    filed_step ha hs.2 hs.1 (Or.inl rfl)
  exact hf.kept

/-! ## The first request

Task 0 has the buffers of two blocks.  Its first `ll_rw_block` after the boot fills slot 31
and leaves the queue empty.  On a queue that has been started, the next one is linked. -/

namespace FirstRequest

def getblkActs (block : U32) : List (Act 2 (Fin 1)) :=
  .call 0 (.want ⟨.getblk, 0x301, block⟩) :: List.replicate 7 (.step 0)

def booted : System 2 (Fin 1) := boot 0x200000 fun _ => 0

def held : System 2 (Fin 1) :=
  (replay (System.next .asWritten) booted (getblkActs 5 ++ getblkActs 6)).getD booted

def readActs (b : Fin 2) : List (Act 2 (Fin 1)) :=
  .call 0 (.llRwBlock BLK_READ b) :: List.replicate 5 (.step 0)

def lost : System 2 (Fin 1) := (replay (System.next .asWritten) held (readActs 0)).getD held

def started : System 2 (Fin 1) := (replay (System.next .linking) held (readActs 0)).getD held

def nextGuarded := restrict (fun (s : System 2 (Fin 1)) a => RwCall a ∧ Linked s a)
  (System.next .asWritten)

def second : System 2 (Fin 1) := (replay nextGuarded started (readActs 1)).getD started

theorem held_start : held.Start :=
  ⟨fun t => by rw [Subsingleton.elim t 0]; decide +kernel, by decide +kernel⟩

theorem started_start : started.Start :=
  ⟨fun t => by rw [Subsingleton.elim t 0]; decide +kernel, by decide +kernel⟩

theorem held_nothingLost : NothingLost held.mem := by
  refine ⟨fun _ => [], fun k => ?_, fun k r => ?_, fun r hr => ?_, fun k => rfl⟩
  · exact Chain.empty _
  · constructor
    · intro hr
      cases hr
    · rintro ⟨hidle, _⟩
      cases hidle
  · cases hr

theorem started_nothingLost : NothingLost started.mem :=
  no_request_lost_linking held_start held_nothingLost
    ((run_replay (by decide +kernel)).guard (by decide))

end FirstRequest

theorem request_lost_iff_second_request :
    NothingLost FirstRequest.second.mem ∧ FirstRequest.second.mem.added BLK_DEV_NUM_HD = [31, 30] := by
  have hrun : Run (Guarded (fun s a => RwCall a ∧ Linked s a) (System.Step .asWritten))
      FirstRequest.started (FirstRequest.readActs 1) FirstRequest.second :=
    Run.guarded_of_restrict (run_replay (by decide +kernel))
  exact ⟨(request_lost_iff FirstRequest.started_start FirstRequest.started_nothingLost hrun).1,
    by decide +kernel⟩

theorem ll_rw_block_loses_the_first_request :
    ¬ ∀ (s₀ s : System 2 (Fin 1)) (as : List (Act 2 (Fin 1))), s₀.Start →
      s₀.mem.dev = BlkDev.static.blkReqInit.hdInit → (∀ k, s₀.mem.added k = []) →
      (∀ k, s₀.mem.retired k = []) →
      Run (Guarded (fun _ a => RwCall a) (System.Step .asWritten)) s₀ as s →
      NothingLost s.mem := by
  intro h
  have hrun : Run (Guarded (fun _ a => RwCall a) (System.Step .asWritten)) FirstRequest.held
      (FirstRequest.readActs 0) FirstRequest.lost :=
    (run_replay (by decide +kernel)).guard (by decide)
  refine not_nothingLost (r := 31) (k := BLK_DEV_NUM_HD) ?_ ?_
    (h _ _ _ FirstRequest.held_start rfl (fun _ => rfl) (fun _ => rfl) hrun)
  · exact ⟨by decide +kernel, by decide +kernel⟩
  · decide +kernel

end Io
end CherryOS
