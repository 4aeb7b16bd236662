import CherryOS.Io.Alone

/-!
# Who is evicted

One task calls `getblk` and `brelse` and no buffer is written to.  The free list is then
the buffers by age: first those that were never given to a block, by address, and then the
others by the time they were last given to one.  A miss takes the first unused buffer of the
list, and giving it to the block puts it at the end.  A hit moves nothing.
-/

namespace CherryOS
namespace Io

open Kernel (U32)
open Fs (BufferHead Cache badness)
open Driver
open Lib

variable {n : Nat}

/-! ## Age -/

section age

variable {log : List (Fin n)} {b x y : Fin n}

/-- When a buffer was last given to a block, counted from 1; 0 if it never was.  `log` is the
buffers that were, oldest first. -/
def lastRekey (log : List (Fin n)) (x : Fin n) : Nat := log.length - log.reverse.idxOf x

/-- Of two that were never given to a block the one at the lower address is older. -/
def Older (log : List (Fin n)) (x y : Fin n) : Prop :=
  lastRekey log x < lastRekey log y ∨ lastRekey log x = lastRekey log y ∧ x < y

theorem lastRekey_concat : lastRekey (log ++ [b]) x =
    if x = b then log.length + 1 else lastRekey log x := by
  rw [lastRekey, List.reverse_append, List.reverse_singleton, List.singleton_append,
    List.idxOf_cons, List.length_append, List.length_singleton]
  by_cases hx : x = b
  · simp [hx]
  · have hbx : (b == x) = false := beq_eq_false_iff_ne.mpr (Ne.symm hx)
    rw [hbx, cond_false, if_neg hx, lastRekey]
    omega

theorem lastRekey_le : lastRekey log x ≤ log.length := Nat.sub_le ..

theorem Older.concat_other (hx : x ≠ b) (hy : y ≠ b) (h : Older log x y) :
    Older (log ++ [b]) x y := by
  rw [Older, lastRekey_concat, lastRekey_concat, if_neg hx, if_neg hy]
  exact h

/-- What was just given to a block is the youngest. -/
theorem older_concat (hx : x ≠ b) : Older (log ++ [b]) x b := by
  rw [Older, lastRekey_concat, lastRekey_concat, if_neg hx, if_pos rfl]
  exact Or.inl (Nat.lt_succ_of_le lastRekey_le)

/-- The order after the buffer `b` was given to a block. -/
theorem pairwise_concat {low high : List (Fin n)} (h : (low ++ b :: high).Pairwise (Older log))
    (hnodup : (low ++ b :: high).Nodup) :
    (low ++ high ++ [b]).Pairwise (Older (log ++ [b])) := by
  have hb : b ∉ low ++ high := (List.nodup_cons.mp (List.nodup_middle.mp hnodup)).1
  have hne : ∀ z ∈ low ++ high, z ≠ b := fun z hz e => hb (e ▸ hz)
  have hrest : (low ++ high).Pairwise (Older log) :=
    h.sublist (List.Sublist.append_left (List.sublist_cons_self b high) low)
  refine List.pairwise_append.mpr ⟨?_, List.pairwise_singleton _ b, fun z hz a ha => ?_⟩
  · exact hrest.imp_of_mem fun hz ha hza => hza.concat_other (hne _ hz) (hne _ ha)
  · rw [List.mem_singleton.mp ha]
    exact older_concat (hne z hz)

end age

/-! ## The choice among clean buffers -/

/-- The first unused head of a list. -/
def FirstUnused (c : Cache n) (l : List (Fin n)) (b : Fin n) : Prop :=
  ∃ low high, l = low ++ b :: high ∧ (c.bh b).bCount = 0 ∧ ∀ x ∈ low, (c.bh x).bCount ≠ 0

/-- No block was written to, and no buffer is with the driver. -/
def Clean (c : Cache n) : Prop := ∀ x, (c.bh x).bDirt = 0 ∧ (c.bh x).bLock = 0

section choice

variable {c : Cache n} {l low high : List (Fin n)} {b : Fin n} {log : List (Fin n)}

theorem Clean.badness (h : Clean c) (x : Fin n) : badness (c.bh x) = 0 := by
  rw [Fs.badness, (h x).1, (h x).2]
  rfl

theorem not_better {x : Fin n} {bh : Option (Fin n)} (h : (c.bh x).bCount ≠ 0) :
    ¬ better c x bh = true :=
  fun hb => h (better_iff.mp hb).1

theorem better_none {x : Fin n} (h : (c.bh x).bCount = 0) : better c x none = true :=
  better_iff.mpr ⟨h, fun a ha => by cases ha⟩

theorem Clean.pick_first (h : Clean c) (hb : (c.bh b).bCount = 0)
    (hlow : ∀ x ∈ low, (c.bh x).bCount ≠ 0) : pick c (low ++ b :: high) none = some b := by
  induction low with
  | nil => rw [List.nil_append, pick, if_pos (better_none hb), if_pos (h.badness b)]
  | cons x low ih =>
    rw [List.cons_append, pick, if_neg (not_better (hlow x List.mem_cons_self))]
    exact ih fun y hy => hlow y (List.mem_cons_of_mem x hy)

theorem exists_firstUnused (h : ∃ x ∈ l, (c.bh x).bCount = 0) : ∃ b, FirstUnused c l b := by
  induction l with
  | nil =>
    obtain ⟨x, hx, -⟩ := h
    cases hx
  | cons y l ih =>
    by_cases hy : (c.bh y).bCount = 0
    · exact ⟨y, [], l, rfl, hy, fun x hx => by cases hx⟩
    · obtain ⟨x, hx, hcount⟩ := h
      have hxl : x ∈ l := by
        rcases List.mem_cons.mp hx with rfl | hx
        · exact absurd hcount hy
        · exact hx
      obtain ⟨b, low, high, rfl, hb, hlow⟩ := ih ⟨x, hxl, hcount⟩
      refine ⟨b, y :: low, high, rfl, hb, fun z hz => ?_⟩
      rcases List.mem_cons.mp hz with rfl | hz
      · exact hy
      · exact hlow z hz

/-- The unused buffer that was given to a block the longest time ago. -/
def OldestUnused (c : Cache n) (log : List (Fin n)) (b : Fin n) : Prop :=
  (c.bh b).bCount = 0 ∧ ∀ x, x ≠ b → (c.bh x).bCount = 0 → Older log b x

theorem FirstUnused.oldest (h : FirstUnused c l b) (hall : ∀ x, x ∈ l)
    (hage : l.Pairwise (Older log)) : OldestUnused c log b := by
  obtain ⟨low, high, rfl, hb, hlow⟩ := h
  refine ⟨hb, fun x hx hcount => ?_⟩
  rcases List.mem_append.mp (hall x) with hl | hl
  · exact absurd hcount (hlow x hl)
  · have hhigh := (List.mem_cons.mp hl).resolve_left hx
    exact (List.pairwise_cons.mp (List.pairwise_append.mp hage).2.1).1 x hhigh

end choice

/-! ## The calls -/

/-- The task calls `getblk` and `brelse`, and nothing else happens. -/
def CacheCall : Act n Unit → Prop
  | .call _ (.want w) => w.kind = .getblk
  | .call _ (.brelse _) | .go _ | .step _ => True
  | _ => False

instance (a : Act n Unit) : Decidable (CacheCall a) :=
  match a with
  | .call _ (.want w) => inferInstanceAs (Decidable (w.kind = .getblk))
  | .call _ (.brelse _) | .go _ | .step _ => isTrue trivial
  | .call _ (.llRwBlock ..) | .intr _ | .setDirt .. | .setUptodate .. => isFalse id

/-- The buffer that a step from this place gives to a block. -/
def rekeys (m : Mem n) : Pc n → Option (Fin n)
  | .claim w b => if m.cache.findBuffer w.dev w.block = some none then some b else none
  | _ => none

def rekeyed (s : System n Unit) : Act n Unit → Option (Fin n)
  | .step t => rekeys s.mem (s.pc t)
  | _ => none

/-- The system with the buffers that were given to blocks, oldest first. -/
def watch (mode : AddMode) (s : System n Unit × List (Fin n)) (a : Act n Unit) :
    Option (System n Unit × List (Fin n)) :=
  (s.1.next mode a).map fun s' => (s', s.2 ++ (rekeyed s.1 a).toList)

/-- What the task knows of the free list at each place of a call. -/
def AtPlace (c : Cache n) (l : List (Fin n)) : Pc n → Prop
  | .idle | .panicked | .brelseWait none _ => True
  | .lookup w | .hashWait w _ | .noBuffer w | .gotBlk w _ | .ret w _ => w.kind = .getblk
  | .scan w tmp bh => w.kind = .getblk ∧ bh = none ∧
      ∃ low high, l = low ++ tmp :: high ∧ ∀ x ∈ low, (c.bh x).bCount ≠ 0
  | .victimWait w b | .checkDirty w b | .claim w b => w.kind = .getblk ∧ FirstUnused c l b
  | _ => False

/-- The free list is the buffers by age. -/
structure Aged (c : Cache n) (log l : List (Fin n)) : Prop where
  list : c.FreeList l
  all : ∀ x, x ∈ l
  age : l.Pairwise (Older log)

structure Turn (m : Mem n) (log : List (Fin n)) (p : Pc n) : Prop where
  wellFormed : m.cache.WellFormed
  clean : Clean m.cache
  order : ∃ l, Aged m.cache log l ∧ AtPlace m.cache l p

section step

variable {mode : AddMode} {m m' : Mem n} {p q : Pc n} {nx : Next n} {w : Want} {b : Fin n}
  {log l : List (Fin n)} {c : Cache n}

/-- The next place, when no head was moved. -/
theorem Turn.congr (h : Turn m log p) (hs : m.cache.SameLinks m'.cache)
    (hflags : ∀ x, (m'.cache.bh x).bDirt = (m.cache.bh x).bDirt ∧
      (m'.cache.bh x).bLock = (m.cache.bh x).bLock)
    (hplace : ∀ l, Aged m.cache log l → AtPlace m.cache l p → AtPlace m'.cache l q) :
    Turn m' log q := by
  obtain ⟨l, hl, hp⟩ := h.order
  refine ⟨h.wellFormed.congr hs, fun x => ?_, l, ⟨hl.list.congr hs, hl.all, hl.age⟩, hplace l hl hp⟩
  rw [(hflags x).1, (hflags x).2]
  exact h.clean x

theorem Turn.goto (h : Turn m log p)
    (hplace : ∀ l, Aged m.cache log l → AtPlace m.cache l p → AtPlace m.cache l q) :
    Turn m log q :=
  h.congr (.refl _) (fun _ => ⟨rfl, rfl⟩) hplace

/-- The use of a head is counted. -/
theorem Turn.count (h : Turn m log p) (b : Fin n) (k : BitVec 8 → BitVec 8)
    (hplace : ∀ l c, AtPlace m.cache l p → AtPlace c l q) :
    Turn (m.store b fun h => { h with bCount := k h.bCount }) log q := by
  refine h.congr (sameLinks_store m b fun _ => ⟨rfl, rfl, rfl, rfl, rfl, rfl⟩) (fun x => ?_)
    fun l _ hp => hplace l _ hp
  exact ⟨Mem.store_keeps (f := fun h => { h with bCount := k h.bCount })
      (g := BufferHead.bDirt) (fun _ => rfl) m b x,
    Mem.store_keeps (f := fun h => { h with bCount := k h.bCount })
      (g := BufferHead.bLock) (fun _ => rfl) m b x⟩

/-- A place of the scan.  The heads before it are all in use. -/
theorem Turn.scan {tmp : Fin n} {bh : Option (Fin n)} (h : Turn m log (.scan w tmp bh))
    (hexec : exec mode m (.scan w tmp bh) = some (m', nx)) : Turn m' log nx.pc := by
  obtain ⟨l, hl, hkind, rfl, low, high, rfl, hlow⟩ := h.order
  have hend : ∀ y, m.cache.nextFree tmp = some y → Turn m log
      (if y = m.cache.freeList then chosen w none else .go (.scan w y none)).pc ∨
        (m.cache.bh tmp).bCount = 0 := by
    intro y hy
    by_cases hcount : (m.cache.bh tmp).bCount = 0
    · exact Or.inr hcount
    left
    cases high with
    | nil =>
      have hlast := hl.list.next_last.symm.trans hy
      rw [if_pos (Option.some.inj hlast).symm]
      exact h.goto fun _ _ hp => hp.1
    | cons x high =>
      obtain ⟨hx, hne⟩ := hl.list.next
      have hyx : y = x := Option.some.inj (hy.symm.trans hx)
      subst hyx
      rw [if_neg hne]
      refine ⟨h.wellFormed, h.clean, _, hl, hkind, rfl, low ++ [tmp], high, by simp, ?_⟩
      intro z hz
      rcases List.mem_append.mp hz with hz | hz
      · exact hlow z hz
      · rw [List.mem_singleton.mp hz]
        exact hcount
  obtain ⟨y, hy⟩ : ∃ y, m.cache.nextFree tmp = some y := by
    cases high with
    | nil => exact ⟨_, hl.list.next_last⟩
    | cons x high => exact ⟨x, hl.list.next.1⟩
  rw [exec_scan none hy] at hexec
  cases hexec
  by_cases hcount : (m.cache.bh tmp).bCount = 0
  · rw [if_pos ⟨better_none hcount, h.clean.badness tmp⟩]
    exact ⟨h.wellFormed, h.clean, _, hl, hkind, low, high, rfl, hcount, hlow⟩
  · rw [if_neg fun hb => not_better hcount hb.1, if_neg (not_better hcount)]
    exact (hend y hy).resolve_right hcount

/-- The head that is claimed becomes the youngest, and the last. -/
theorem Turn.claim (h : Turn m log (.claim w b)) (hc : m.cache.claim b w.dev w.block = some c) :
    Turn { m with cache := c } (log ++ [b]) (.gotBlk w b) := by
  obtain ⟨l, hl, hkind, low, high, rfl, -⟩ := h.order
  obtain ⟨c₂, c', hc', hsteps, hwf⟩ := h.wellFormed.claim_steps b w.dev w.block
  rw [hc, Option.some.injEq] at hc'
  subst hc'
  have hclaimed := hsteps.claimed
  refine ⟨hwf, fun x => ?_, low ++ high ++ [b], ⟨hsteps.freeList hl.list, fun x => ?_,
    pairwise_concat hl.age hl.list.nodup⟩, hkind⟩
  · by_cases hx : x = b
    · subst hx
      exact ⟨hclaimed.self.bDirt, hclaimed.self.bLock.trans (h.clean x).2⟩
    · have halike := hclaimed.other x hx
      exact ⟨halike.bDirt.trans (h.clean x).1, halike.bLock.trans (h.clean x).2⟩
  · have hx := hl.all x
    simp only [List.mem_append, List.mem_cons, List.not_mem_nil, or_false] at hx ⊢
    tauto

/-- The other places. -/
theorem Turn.flow (h : Turn m log p) (hflow : Flow mode m p m' nx)
    (hscan : ∀ w x bh, p ≠ .scan w x bh) (hclaim : ∀ w b, p ≠ .claim w b) :
    Turn m' log nx.pc := by
  cases hflow with
  | locked hp hlock => exact absurd (h.clean _).2 hlock
  | scanNext | scanNone | scanDone => exact absurd rfl (hscan _ _ _)
  | appeared | corrupted | claimed => exact absurd rfl (hclaim _ _)
  | search =>
    refine h.goto fun l hl hp => ⟨hp, rfl, ?_⟩
    cases l with
    | nil => exact absurd hl.list.head (by simp)
    | cons f l =>
      have hf : f = m.cache.freeList := Option.some.inj hl.list.head
      exact ⟨[], l, by rw [hf]; rfl, fun x hx => by cases hx⟩
  | miss | foundBlk | again | free | dirty | clean => exact h.goto fun _ _ hp => hp
  | taken => exact h.goto fun _ _ hp => hp.1
  | @hit w b => exact h.count (q := .hashWait w b) b (· + 1) fun _ _ hp => hp
  | @lost w b => exact h.count (q := .lookup w) b (· - 1) fun _ _ hp => hp
  | @released b => exact h.count (q := .idle) b (· - 1) fun _ _ _ => trivial
  | found | valid => exact h.congr (.refl _) (fun _ => ⟨rfl, rfl⟩) fun _ _ hp => hp
  | invalid hk =>
    obtain ⟨l, -, hp⟩ := h.order
    rw [show _ = _ from hp] at hk
    cases hk
  | freeing | ended => exact h.goto fun _ _ _ => trivial
  | _ =>
    obtain ⟨l, -, hp⟩ := h.order
    exact hp.elim

theorem Turn.exec (h : Turn m log p) (hexec : exec mode m p = some (m', nx)) :
    Turn m' (log ++ (rekeys m p).toList) nx.pc := by
  cases p with
  | scan w x bh => 
    rw [show log ++ (rekeys m (.scan w x bh)).toList = log from List.append_nil log]
    exact h.scan hexec
  | claim w b =>
    obtain ⟨r, hr, hmap⟩ := Option.map_eq_some_iff.mp hexec
    rw [rekeys, hr]
    cases r with
    | some x =>
      cases hmap
      rw [if_neg (by simp)]
      rw [Option.toList_none, List.append_nil]
      exact h.goto fun _ _ hp => hp.1
    | none =>
      obtain ⟨c, hc, -⟩ := h.wellFormed.claim b w.dev w.block
      simp only [hc] at hmap
      cases hmap
      rw [if_pos rfl]
      exact h.claim hc
  | _ =>
    rw [show rekeys m _ = none from rfl, Option.toList_none, List.append_nil]
    exact h.flow (exec_flow hexec) (by simp) (by simp)

end step

/-! ## Runs -/

section run

variable {mode : AddMode} {s s' : System n Unit} {log log' : List (Fin n)} {a : Act n Unit}

/-- The state of the system between two steps. -/
def Taken (s : System n Unit × List (Fin n)) : Prop := Turn s.1.mem s.2 (s.1.pc ())

theorem taken_boot [NeZero n] (bufferEnd : U32) (blocknr : Fin n → U32) :
    Taken (boot bufferEnd blocknr, []) := by
  refine ⟨Cache.wellFormed_bufferInit bufferEnd blocknr, fun x => ⟨rfl, rfl⟩, List.finRange n,
    ⟨Cache.freeList_bufferInit bufferEnd blocknr, List.mem_finRange, ?_⟩, trivial⟩
  exact (List.pairwise_lt_finRange n).imp fun hlt => Or.inr ⟨rfl, hlt⟩

theorem taken_step (h : Taken (s, log)) (hs : s.next mode a = some s') (hcall : CacheCall a) :
    Taken (s', log ++ (rekeyed s a).toList) := by
  cases a with
  | call t op =>
    obtain ⟨-, hidle, rfl⟩ := System.call_eq hs
    rw [show rekeyed s (.call t op) = none from rfl, Option.toList_none, List.append_nil]
    cases op with
    | want w => exact h.goto fun _ _ _ => hcall
    | brelse b =>
      cases b with
      | none => exact h
      | some b => exact h.congr (.refl _) (fun _ => ⟨rfl, rfl⟩) fun _ _ _ => trivial
    | llRwBlock rw b => exact hcall.elim
  | go t =>
    obtain ⟨-, -, rfl⟩ := System.go_eq hs
    rw [show rekeyed s (.go t) = none from rfl, Option.toList_none, List.append_nil]
    exact h
  | step t =>
    simp only [System.next] at hs
    split at hs
    · obtain ⟨⟨m, nx⟩, hexec, rfl⟩ := Option.map_eq_some_iff.mp hs
      have hturn := Turn.exec h hexec
      rw [Taken, System.settle_mem, System.settle_pc, Function.update_self]
      exact hturn
    · cases hs
  | intr ok | setDirt b v | setUptodate b v => exact hcall.elim

theorem taken_run [NeZero n] {bufferEnd : U32} {blocknr : Fin n → U32} {as : List (Act n Unit)}
    (h : Run (Guarded (fun _ a => CacheCall a) (Steps (watch mode))) (boot bufferEnd blocknr, [])
      as (s, log)) : Taken (s, log) := by
  refine h.invariant (taken_boot bufferEnd blocknr) fun x a y hx hy => ?_
  obtain ⟨hcall, hstep⟩ := hy
  obtain ⟨s', hs', rfl⟩ := Option.map_eq_some_iff.mp hstep
  exact taken_step hx hs' hcall

theorem Turn.oldest {m : Mem n} {p : Pc n} {b : Fin n} (h : Turn m log p)
    (hb : rekeys m p = some b) : OldestUnused m.cache log b := by
  cases p with
  | claim w x =>
    obtain ⟨l, hl, -, hfirst⟩ := h.order
    rw [rekeys] at hb
    split at hb
    · cases hb
      exact hfirst.oldest hl.all hl.age
    · cases hb
  | _ => cases hb

theorem Turn.miss {m : Mem n} {w : Want} (h : Turn m log (.lookup w))
    (hfind : m.cache.findBuffer w.dev w.block = some none)
    (hunused : ∃ x, (m.cache.bh x).bCount = 0) :
    ∃ b c, OldestUnused m.cache log b ∧ m.cache.claim b w.dev w.block = some c ∧
      Goes mode (m, .lookup w) (({ m with cache := c }).handOut b, .ret w (some b)) := by
  obtain ⟨l, hl, hkind⟩ := h.order
  obtain ⟨b, hfirst⟩ := exists_firstUnused (hunused.imp fun x hx => ⟨hl.all x, hx⟩)
  obtain ⟨c, hclaim, -⟩ := h.wellFormed.claim b w.dev w.block
  refine ⟨b, c, hfirst.oldest hl.all hl.age, hclaim, ?_⟩
  obtain ⟨low, high, rfl, hcount, hlow⟩ := hfirst
  have hclean : (m.cache.bh b).bDirt ≠ 1 := by
    rw [(h.clean b).1]
    decide
  exact (goes_miss hkind hfind hl.list (h.clean.pick_first hcount hlow)).trans
    (goes_claim hkind hfind hclaim (h.clean b).2 hcount hclean)

theorem sameLinks_of_not_rekeyed (hs : s.next mode a = some s') (hnone : rekeyed s a = none) :
    s.mem.cache.SameLinks s'.mem.cache := by
  rcases System.step_sameLinks_or_claim hs with hsame | ⟨t, w, b, c, rfl, -, hpc, hfind, -, -⟩
  · exact hsame
  · rw [rekeyed, hpc, rekeys, if_pos hfind] at hnone
    cases hnone

end run

/-- In every run of `getblk` and `brelse` by one task the free list is the buffers by age; a
buffer that is given to a block is the oldest unused one; a miss with an unused buffer goes on
to give that one; and no other step moves a buffer in the list. -/
theorem evicts_oldest [NeZero n] {mode : AddMode} {bufferEnd : U32} {blocknr : Fin n → U32}
    {as : List (Act n Unit)} {s : System n Unit} {log : List (Fin n)}
    (h : Run (Guarded (fun _ a => CacheCall a) (Steps (watch mode))) (boot bufferEnd blocknr, [])
      as (s, log)) :
    (∃ l, s.mem.cache.FreeList l ∧ (∀ x, x ∈ l) ∧ l.Pairwise (Older log)) ∧
    (∀ a b, rekeyed s a = some b → OldestUnused s.mem.cache log b) ∧
    (∀ w, s.pc () = .lookup w → s.mem.cache.findBuffer w.dev w.block = some none →
      (∃ x, (s.mem.cache.bh x).bCount = 0) →
      ∃ b c, OldestUnused s.mem.cache log b ∧ s.mem.cache.claim b w.dev w.block = some c ∧
        Goes mode (s.mem, .lookup w) (({ s.mem with cache := c }).handOut b, .ret w (some b))) ∧
    ∀ a s', s.next mode a = some s' → rekeyed s a = none →
      ∀ l, s.mem.cache.FreeList l → s'.mem.cache.FreeList l := by
  have hturn := taken_run h
  refine ⟨?_, fun a b hb => ?_, fun w hpc hfind hunused => ?_, fun a s' hs hnone l hl => ?_⟩
  · obtain ⟨l, hl, -⟩ := hturn.order
    exact ⟨l, hl.list, hl.all, hl.age⟩
  · cases a with
    | step t => exact hturn.oldest hb
    | _ => cases hb
  · have hlookup : Turn s.mem log (s.pc ()) := hturn
    rw [hpc] at hlookup
    exact hlookup.miss hfind hunused
  · exact hl.congr (sameLinks_of_not_rekeyed hs hnone)

/-! ## Three blocks and two buffers

Blocks 5 and 6 get the two buffers, block 5 is asked for again, and then block 7 gets the
buffer of block 5 all the same. -/

namespace ThreeBlocks

def getThenBrelse (block : U32) (b : Fin 2) (steps : Nat) : List (Act 2 Unit) :=
  [.call () (.want ⟨.getblk, 0x301, block⟩)] ++ List.replicate steps (.step ()) ++
    [.call () (.brelse (some b)), .step ()]

def acts : List (Act 2 Unit) :=
  getThenBrelse 5 0 7 ++ getThenBrelse 6 1 7 ++ getThenBrelse 5 0 4 ++
    [.call () (.want ⟨.getblk, 0x301, 7⟩)] ++ List.replicate 4 (.step ())

def start : System 2 Unit × List (Fin 2) := (boot 0x200000 fun _ => 0, [])

def last : System 2 Unit × List (Fin 2) :=
  (replay (watch .asWritten) start acts).getD start

theorem run : Run (Guarded (fun _ a => CacheCall a) (Steps (watch .asWritten))) start acts last :=
  (run_replay (by decide +kernel)).guard (by decide)

end ThreeBlocks

theorem evicts_oldest_threeBlocks :
    ThreeBlocks.last.2 = [0, 1] ∧ rekeyed ThreeBlocks.last.1 (.step ()) = some 0 ∧
      OldestUnused ThreeBlocks.last.1.mem.cache ThreeBlocks.last.2 0 := by
  have hlog : ThreeBlocks.last.2 = [0, 1] := by decide +kernel
  have hrekeyed : rekeyed ThreeBlocks.last.1 (.step ()) = some 0 := by decide +kernel
  exact ⟨hlog, hrekeyed, (evicts_oldest ThreeBlocks.run).2.1 _ 0 hrekeyed⟩

end Io
end CherryOS
