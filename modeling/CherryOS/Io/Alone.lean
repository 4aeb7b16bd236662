import CherryOS.Fs.FreeOrder
import CherryOS.Io.Unique

/-!
# getblk by itself

No other task runs and no buffer is locked, so a call of `getblk` never waits: it finds the
block, or it goes once around the free list, chooses the first of the least bad buffers that
nobody uses and makes it the buffer of the block.  Between the choice and the end lies the
loop that writes a dirty buffer back.  `sync_dev` writes nothing, and a buffer whose
`b_dirt` is 1 stays dirty.
-/

namespace CherryOS
namespace Io

open Kernel (U32)
open Fs (BufferHead Cache badness)
open Driver
open Lib

variable {n : Nat}

/-- From a place of a call to the next.  A task that sleeps is woken by nobody. -/
def solo (mode : AddMode) (s : Mem n × Pc n) : Option (Mem n × Pc n) :=
  match exec mode s.1 s.2 with
  | some (m, .go p) => some (m, p)
  | _ => none

def Goes (mode : AddMode) : Mem n × Pc n → Mem n × Pc n → Prop :=
  Relation.ReflTransGen fun s t => solo mode s = some t

/-- The call returns after finitely many steps, with a buffer for what was asked for. -/
def Returns (mode : AddMode) (m : Mem n) (w : Want) : Prop :=
  ∃ m' b, Goes mode (m, .lookup w) (m', .ret w (some b)) ∧ (m'.cache.bh b).key = w.key

/-- Some buffer holds the block. -/
def Cached (c : Cache n) (w : Want) : Prop := ∃ b, (c.bh b).bDev ≠ 0 ∧ (c.bh b).key = w.key

/-- The least dirty of the unused buffers are not those whose `b_dirt` is 1. -/
def LeastIsNotOne (c : Cache n) : Prop :=
  ∃ b, (c.bh b).bCount = 0 ∧ (c.bh b).bDirt ≠ 1 ∧
    ∀ x, (c.bh x).bCount = 0 → (c.bh b).bDirt.toNat ≤ (c.bh x).bDirt.toNat

variable {mode : AddMode} {m m' : Mem n} {w : Want} {b : Fin n}

theorem goes_of_exec {p p' : Pc n} (h : exec mode m p = some (m', .go p')) :
    Goes mode (m, p) (m', p') :=
  .single (by rw [solo, h])

theorem Goes.step {p p' : Pc n} {t : Mem n × Pc n} (h : exec mode m p = some (m', .go p'))
    (ht : Goes mode (m', p') t) : Goes mode (m, p) t :=
  (goes_of_exec h).trans ht

/-- A call goes one way. -/
theorem Goes.total {s t u : Mem n × Pc n} (ht : Goes mode s t) (hu : Goes mode s u) :
    Goes mode t u ∨ Goes mode u t :=
  Relation.ReflTransGen.total_of_right_unique
    (fun _ _ _ ha hb => Option.some.inj (ha.symm.trans hb)) ht hu

/-! ## The choice -/

section pick

variable {c : Cache n}

/-- What a scan of the heads in `l` makes of its candidate. -/
def pick (c : Cache n) : List (Fin n) → Option (Fin n) → Option (Fin n)
  | [], bh => bh
  | x :: l, bh =>
    if better c x bh then if badness (c.bh x) = 0 then some x else pick c l (some x)
    else pick c l bh

theorem better_iff {x : Fin n} {bh : Option (Fin n)} : better c x bh = true ↔
    (c.bh x).bCount = 0 ∧ ∀ a, bh = some a → badness (c.bh x) < badness (c.bh a) := by
  rw [better, decide_eq_true_iff]

/-- A candidate is never given up for nothing. -/
theorem pick_isSome {l : List (Fin n)} {bh : Option (Fin n)}
    (h : bh.isSome ∨ ∃ x ∈ l, (c.bh x).bCount = 0) : (pick c l bh).isSome := by
  induction l generalizing bh with
  | nil => simpa [pick] using h
  | cons x l ih =>
    rw [pick]
    by_cases hb : better c x bh = true
    · rw [if_pos hb]
      split
      · rfl
      · exact ih (Or.inl rfl)
    · rw [if_neg hb]
      refine ih ?_
      cases bh with
      | some a => exact Or.inl rfl
      | none =>
        refine Or.inr ?_
        obtain ⟨y, hy, hcount⟩ := h.resolve_left (by simp)
        rcases List.mem_cons.mp hy with rfl | hy
        · exact absurd (better_iff.mpr ⟨hcount, fun a ha => by cases ha⟩) hb
        · exact ⟨y, hy, hcount⟩

/-- The choice is an unused head, and no unused head is better. -/
theorem pick_least {l : List (Fin n)} {bh : Option (Fin n)} (h : pick c l bh = some b)
    (hbh : ∀ a, bh = some a → (c.bh a).bCount = 0) :
    (c.bh b).bCount = 0 ∧ (∀ x ∈ l, (c.bh x).bCount = 0 → badness (c.bh b) ≤ badness (c.bh x)) ∧
      ∀ a, bh = some a → badness (c.bh b) ≤ badness (c.bh a) := by
  induction l generalizing bh with
  | nil =>
    refine ⟨hbh b h, by simp, fun a ha => ?_⟩
    rw [pick, ha] at h
    cases h
    exact Nat.le_refl _
  | cons x l ih =>
    rw [pick] at h
    by_cases hb : better c x bh = true
    · obtain ⟨hcount, hless⟩ := better_iff.mp hb
      rw [if_pos hb] at h
      split at h
      · rename_i hzero
        cases h
        rw [hzero]
        exact ⟨hcount, fun _ _ _ => Nat.zero_le _, fun _ _ => Nat.zero_le _⟩
      · obtain ⟨hb0, hrest, hx⟩ := ih h fun a ha => by cases ha; exact hcount
        have hbx := hx x rfl
        refine ⟨hb0, fun y hy hy0 => ?_, fun a ha => hbx.trans (Nat.le_of_lt (hless a ha))⟩
        rcases List.mem_cons.mp hy with rfl | hy
        · exact hbx
        · exact hrest y hy hy0
    · rw [if_neg hb] at h
      obtain ⟨hb0, hrest, ha⟩ := ih h hbh
      refine ⟨hb0, fun y hy hy0 => ?_, ha⟩
      rcases List.mem_cons.mp hy with rfl | hy
      · -- the candidate was at least as good as `y`
        by_contra hlt
        refine hb (better_iff.mpr ⟨hy0, fun a hbh => ?_⟩)
        exact Nat.lt_of_lt_of_le (Nat.lt_of_not_le hlt) (ha a hbh)
      · exact hrest y hy hy0

/-- One place of the scan. -/
theorem exec_scan {x y : Fin n} (bh : Option (Fin n)) (hnext : m.cache.nextFree x = some y) :
    exec mode m (.scan w x bh) = some (m,
      if better m.cache x bh ∧ badness (m.cache.bh x) = 0 then chosen w (some x)
      else if y = m.cache.freeList then chosen w (if better m.cache x bh then some x else bh)
      else .go (.scan w y (if better m.cache x bh then some x else bh))) := by
  have hnext : (m.cache.bh x).bNextFree = some y := hnext
  rw [exec]
  by_cases hgood : better m.cache x bh = true ∧ badness (m.cache.bh x) = 0
  · rw [if_pos hgood, if_pos hgood, if_pos hgood.1]
  · rw [if_neg hgood, if_neg hgood, hnext, Option.map_some]
    split <;> rfl

theorem pick_cons (c : Cache n) (x : Fin n) (l : List (Fin n)) (bh : Option (Fin n)) :
    pick c (x :: l) bh =
      if better c x bh = true ∧ badness (c.bh x) = 0 then some x
      else pick c l (if better c x bh then some x else bh) := by
  rw [pick]
  by_cases hb : better c x bh = true
  · by_cases hz : badness (c.bh x) = 0 <;> simp [hb, hz]
  · simp [hb]

/-- The scan from a head of the free list on ends with that choice. -/
theorem goes_scan (low : List (Fin n)) {high : List (Fin n)} {x : Fin n} {bh : Option (Fin n)}
    (hl : m.cache.FreeList (low ++ x :: high)) (h : pick m.cache (x :: high) bh = some b) :
    Goes mode (m, .scan w x bh) (m, .victimWait w b) := by
  induction high generalizing low x bh with
  | nil =>
    have hexec : exec mode m (.scan w x bh) = _ := exec_scan bh hl.next_last
    rw [pick_cons, pick] at h
    rw [if_pos rfl] at hexec
    refine goes_of_exec (hexec.trans ?_)
    split at h
    · rw [if_pos ‹_›, h]
      rfl
    · rw [if_neg ‹_›, h]
      rfl
  | cons y high ih =>
    obtain ⟨hnext, hy⟩ := hl.next
    have hexec : exec mode m (.scan w x bh) = _ := exec_scan bh hnext
    rw [pick_cons] at h
    rw [if_neg hy] at hexec
    split at h
    · rw [if_pos ‹_›, h] at hexec
      exact goes_of_exec hexec
    · rw [if_neg ‹_›] at hexec
      have hl' : m.cache.FreeList ((low ++ [x]) ++ y :: high) := by
        rw [List.append_assoc]
        exact hl
      exact (ih (low ++ [x]) hl' h).step hexec

end pick

/-! ## The call -/

section call

theorem cached_iff (hwf : m.cache.WellFormed) :
    Cached m.cache w ↔ ∃ b, m.cache.findBuffer w.dev w.block = some (some b) := by
  constructor
  · rintro ⟨b, hdev, hkey⟩
    obtain ⟨r, hr⟩ := hwf.findBuffer_total w.dev w.block
    cases r with
    | some x => exact ⟨x, hr⟩
    | none => exact absurd hkey (hwf.of_findBuffer_none hr hdev)
  · rintro ⟨b, hb⟩
    obtain ⟨hkey, hdev⟩ := hwf.of_findBuffer hb
    exact ⟨b, hdev, hkey⟩

/-- What is locked is waited for; nothing is. -/
theorem afterWait_unlocked {p : Pc n} {k : Option (Mem n × Next n)}
    (h : (m.cache.bh b).bLock = 0) : afterWait m b p k = k := by
  rw [afterWait, if_neg (not_not.mpr h)]

theorem goes_gotBlk (hkind : w.kind = .getblk) :
    Goes mode (m, .gotBlk w b) (m.handOut b, .ret w (some b)) := by
  refine goes_of_exec ?_
  rw [exec, if_neg (by rw [hkind]; simp)]
  rfl

theorem hold_key (x : Fin n) : ((m.hold b).cache.bh x).key = (m.cache.bh x).key :=
  Mem.store_keeps (f := fun h => { h with bCount := h.bCount + 1 }) (g := BufferHead.key)
    (fun _ => rfl) m b x

theorem hold_bLock (x : Fin n) : ((m.hold b).cache.bh x).bLock = (m.cache.bh x).bLock :=
  Mem.store_keeps (f := fun h => { h with bCount := h.bCount + 1 }) (g := BufferHead.bLock)
    (fun _ => rfl) m b x

/-- A block that is in the cache is found. -/
theorem returns_hit (hkind : w.kind = .getblk) (hlock : ∀ b, (m.cache.bh b).bLock = 0)
    (hwf : m.cache.WellFormed) (hfind : m.cache.findBuffer w.dev w.block = some (some b)) :
    Goes mode (m, .lookup w) ((m.hold b).handOut b, .ret w (some b)) := by
  have hkey : ((m.hold b).cache.bh b).key = w.key :=
    (hold_key b).trans (hwf.of_findBuffer hfind).1
  have hlook : exec mode m (.lookup w) = some (m.hold b, .go (.hashWait w b)) := by
    rw [exec, hfind]
    rfl
  have hwait : exec mode (m.hold b) (.hashWait w b) = some (m.hold b, .go (.gotBlk w b)) := by
    rw [exec, afterWait_unlocked ((hold_bLock b).trans (hlock b)), if_pos hkey,
      if_neg (by rw [hkind]; simp)]
  exact ((goes_gotBlk hkind).step hwait).step hlook

/-- A block that is not in the cache: a scan makes the choice. -/
theorem goes_miss {l : List (Fin n)} (hkind : w.kind = .getblk)
    (hfind : m.cache.findBuffer w.dev w.block = some none) (hl : m.cache.FreeList l)
    (hpick : pick m.cache l none = some b) :
    Goes mode (m, .lookup w) (m, .victimWait w b) := by
  have hlook : exec mode m (.lookup w) = some (m, .go (.scan w m.cache.freeList none)) := by
    rw [exec, hfind, Option.map_some, if_neg (by rw [hkind]; simp)]
  cases l with
  | nil => exact absurd hl.head (by simp)
  | cons f l =>
    have hf : f = m.cache.freeList := Option.some.inj hl.head
    subst hf
    exact (goes_scan [] hl hpick).step hlook

theorem exec_victimWait (hlock : (m.cache.bh b).bLock = 0) (hcount : (m.cache.bh b).bCount = 0) :
    exec mode m (.victimWait w b) = some (m, .go (.checkDirty w b)) := by
  rw [exec, afterWait_unlocked hlock, if_neg (not_not.mpr hcount)]

theorem exec_checkDirty : exec mode m (.checkDirty w b) =
    some (m, .go (if (m.cache.bh b).bDirt = 1 then .victimWait w b else .claim w b)) := by
  rw [exec]
  split <;> rfl

/-- A clean choice becomes the buffer of the block. -/
theorem goes_claim {c : Cache n} (hkind : w.kind = .getblk)
    (hfind : m.cache.findBuffer w.dev w.block = some none)
    (hclaim : m.cache.claim b w.dev w.block = some c) (hlock : (m.cache.bh b).bLock = 0)
    (hcount : (m.cache.bh b).bCount = 0) (hdirt : (m.cache.bh b).bDirt ≠ 1) :
    Goes mode (m, .victimWait w b) (({ m with cache := c }).handOut b, .ret w (some b)) := by
  have hdirty : exec mode m (.checkDirty w b) = _ := exec_checkDirty
  rw [if_neg hdirt] at hdirty
  have hlast : exec mode m (.claim w b) = some ({ m with cache := c }, .go (.gotBlk w b)) := by
    rw [exec, hfind, Option.map_some, hclaim]
  exact (((goes_gotBlk hkind).step hlast).step hdirty).step (exec_victimWait hlock hcount)

/-- A dirty choice is written back for ever. -/
theorem stuck_dirty (hlock : (m.cache.bh b).bLock = 0) (hcount : (m.cache.bh b).bCount = 0)
    (hdirt : (m.cache.bh b).bDirt = 1) {t : Mem n × Pc n}
    (h : Goes mode (m, .victimWait w b) t) :
    t = (m, .victimWait w b) ∨ t = (m, .checkDirty w b) := by
  induction h with
  | refl => exact Or.inl rfl
  | tail _ hstep ih =>
    rcases ih with rfl | rfl
    · rw [solo, exec_victimWait hlock hcount] at hstep
      exact Or.inr (Option.some.inj hstep).symm
    · rw [solo, exec_checkDirty, if_pos hdirt] at hstep
      exact Or.inl (Option.some.inj hstep).symm

/-- A call that has returned is over. -/
theorem goes_ret {bh : Option (Fin n)} {t : Mem n × Pc n} (h : Goes mode (m, .ret w bh) t) :
    t = (m, .ret w bh) := by
  rcases Relation.ReflTransGen.cases_head h with rfl | ⟨u, hstep, -⟩
  · rfl
  · cases hstep

end call

/-- With no buffer locked and one unused, `getblk` returns if and only if the block is in the
cache or the least dirty unused buffers are not those whose `b_dirt` is 1. -/
theorem getblk_returns_iff {mode : AddMode} {m : Mem n} {w : Want} (hkind : w.kind = .getblk)
    (hdev : 1 ≤ w.dev.toNat ∧ w.dev.toNat ≤ 65535) (hwf : m.cache.WellFormed)
    (hlock : ∀ b, (m.cache.bh b).bLock = 0) (hunused : ∃ b, (m.cache.bh b).bCount = 0) :
    Returns mode m w ↔ Cached m.cache w ∨ LeastIsNotOne m.cache := by
  obtain ⟨r, hfind⟩ := hwf.findBuffer_total w.dev w.block
  cases r with
  | some b =>
    have hkey : (((m.hold b).handOut b).cache.bh b).key = w.key :=
      (hold_key b).trans (hwf.of_findBuffer hfind).1
    exact iff_of_true ⟨_, b, returns_hit hkind hlock hwf hfind, hkey⟩
      (Or.inl ((cached_iff hwf).mpr ⟨b, hfind⟩))
  | none =>
    have huncached : ¬ Cached m.cache w := by
      intro hc
      obtain ⟨b, hb⟩ := (cached_iff hwf).mp hc
      rw [hfind] at hb
      cases hb
    obtain ⟨l, hl, hall⟩ := hwf.freeList
    have hsome : (pick m.cache l none).isSome :=
      pick_isSome (Or.inr (hunused.imp fun x hx => ⟨hall x, hx⟩))
    obtain ⟨b, hpick⟩ := Option.isSome_iff_exists.mp hsome
    obtain ⟨hcount, hleast, -⟩ := pick_least hpick fun a ha => by cases ha
    have hmiss : Goes mode (m, .lookup w) (m, .victimWait w b) :=
      goes_miss hkind hfind hl hpick
    have hmin : ∀ x, (m.cache.bh x).bCount = 0 →
        (m.cache.bh b).bDirt.toNat ≤ (m.cache.bh x).bDirt.toNat := by
      intro x hx
      have hbad := hleast x (hall x) hx
      rw [badness, badness, hlock, hlock] at hbad
      omega
    by_cases hdirt : (m.cache.bh b).bDirt = 1
    · refine iff_of_false ?_ (not_or.mpr ⟨huncached, ?_⟩)
      · rintro ⟨m', a, hret, -⟩
        rcases hmiss.total hret with hgo | hgo
        · rcases stuck_dirty (hlock b) hcount hdirt hgo with hc | hc <;> cases hc
        · cases goes_ret hgo
      · rintro ⟨a, ha, hne, hamin⟩
        refine hne (BitVec.eq_of_toNat_eq ?_)
        have hle := hamin b hcount
        have hge := hmin a ha
        rw [hdirt] at hle hge
        exact Nat.le_antisymm hle hge
    · obtain ⟨c, hclaim, hclaimed, -⟩ := hwf.claim b w.dev w.block
      refine iff_of_true ⟨_, b, hmiss.trans
        (goes_claim hkind hfind hclaim (hlock b) hcount hdirt), ?_⟩
        (Or.inr ⟨b, hcount, hdirt, hmin⟩)
      exact Want.Narrow.claimed hdev.2 hclaimed

/-! ## A cache of one dirty buffer -/

namespace OneDirty

/-- The only buffer is unused, and its block was written to. -/
def mem (dirt : BitVec 8) : Mem 1 :=
  { (boot 0x200000 fun _ => 0 : System 1 Unit).mem with
    cache := (Cache.bufferInit 0x200000 fun _ => 0).store (some 0) fun h =>
      { h with bDirt := dirt } }

def want : Want := ⟨.getblk, 0x301, 5⟩

theorem sameLinks (dirt : BitVec 8) :
    (Cache.bufferInit 0x200000 fun _ => 0).SameLinks (mem dirt).cache :=
  .store (f := fun h => { h with bDirt := dirt }) _ (some 0) fun _ => ⟨rfl, rfl, rfl, rfl, rfl, rfl⟩

theorem wellFormed (dirt : BitVec 8) : (mem dirt).cache.WellFormed :=
  (Cache.wellFormed_bufferInit 0x200000 fun _ => 0).congr (sameLinks dirt)

theorem unlocked (dirt : BitVec 8) (b : Fin 1) : ((mem dirt).cache.bh b).bLock = 0 := by
  rw [Subsingleton.elim b 0]
  rfl

theorem unused (dirt : BitVec 8) : ((mem dirt).cache.bh 0).bCount = 0 := rfl

end OneDirty

theorem getblk_returns_iff_clean : Returns .asWritten (OneDirty.mem 0) OneDirty.want :=
  (getblk_returns_iff rfl (by decide) (OneDirty.wellFormed 0) (OneDirty.unlocked 0)
    ⟨0, OneDirty.unused 0⟩).mpr (Or.inr ⟨0, rfl, by decide, fun _ _ => Nat.zero_le _⟩)

/-- A block for which the only buffer would have to be written back. -/
theorem getblk_never_returns :
    (OneDirty.mem 1).cache.WellFormed ∧ (∀ b, ((OneDirty.mem 1).cache.bh b).bLock = 0) ∧
      ((OneDirty.mem 1).cache.bh 0).bCount = 0 ∧
      ¬ Returns .asWritten (OneDirty.mem 1) OneDirty.want := by
  refine ⟨OneDirty.wellFormed 1, OneDirty.unlocked 1, rfl, ?_⟩
  rintro ⟨m', b, hret, -⟩
  have hpick : pick (OneDirty.mem 1).cache [0] none = some 0 := by decide
  have hlist : (OneDirty.mem 1).cache.FreeList [0] :=
    (Cache.freeList_bufferInit 0x200000 fun _ => 0).congr (OneDirty.sameLinks 1)
  have hmiss : Goes .asWritten (OneDirty.mem 1, .lookup OneDirty.want)
      (OneDirty.mem 1, .victimWait OneDirty.want 0) := goes_miss rfl rfl hlist hpick
  rcases hmiss.total hret with hgo | hgo
  · rcases stuck_dirty rfl rfl rfl hgo with hc | hc <;> cases hc
  · cases goes_ret hgo

end Io
end CherryOS
