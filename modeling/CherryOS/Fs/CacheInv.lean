import CherryOS.Fs.Buffer

/-!
# The two structures of the cache

`WellFormed` is the representation invariant: the free list is a ring of every head, and
each hash chain holds the heads with a device whose key hashes to it.  `getblk` moves a
head by taking it out of both structures under its old key and putting it back under its
new one.  `Detached` is the invariant in between, when one head is in neither.
-/

namespace CherryOS
namespace Fs

open Kernel (U32)
open Lib

variable {n : Nat}

/-- Two heads with the same key, data and flags.  Their links may differ. -/
structure BufferHead.Alike (h h' : BufferHead n) : Prop where
  bData : h'.bData = h.bData
  bBlocknr : h'.bBlocknr = h.bBlocknr
  bDev : h'.bDev = h.bDev
  bUptodate : h'.bUptodate = h.bUptodate
  bDirt : h'.bDirt = h.bDirt
  bCount : h'.bCount = h.bCount
  bLock : h'.bLock = h.bLock

namespace BufferHead.Alike

variable {h h' h'' : BufferHead n}

theorem trans (h₁ : Alike h h') (h₂ : Alike h' h'') : Alike h h'' where
  bData := h₂.bData.trans h₁.bData
  bBlocknr := h₂.bBlocknr.trans h₁.bBlocknr
  bDev := h₂.bDev.trans h₁.bDev
  bUptodate := h₂.bUptodate.trans h₁.bUptodate
  bDirt := h₂.bDirt.trans h₁.bDirt
  bCount := h₂.bCount.trans h₁.bCount
  bLock := h₂.bLock.trans h₁.bLock

theorem key (h₁ : Alike h h') : h'.key = h.key := by
  rw [BufferHead.key, h₁.bDev, h₁.bBlocknr]
  rfl

theorem bucket (h₁ : Alike h h') : h'.bucket = h.bucket := by
  rw [BufferHead.bucket, h₁.bDev, h₁.bBlocknr]
  rfl

end BufferHead.Alike

/-- Two heads with the same key and the same links.  Their flags may differ. -/
structure BufferHead.InPlace (h h' : BufferHead n) : Prop where
  bDev : h'.bDev = h.bDev
  bBlocknr : h'.bBlocknr = h.bBlocknr
  bPrevHash : h'.bPrevHash = h.bPrevHash
  bNextHash : h'.bNextHash = h.bNextHash
  bPrevFree : h'.bPrevFree = h.bPrevFree
  bNextFree : h'.bNextFree = h.bNextFree

namespace BufferHead.InPlace

variable {h h' h'' : BufferHead n}

theorem refl (h : BufferHead n) : InPlace h h := ⟨rfl, rfl, rfl, rfl, rfl, rfl⟩

theorem trans (h₁ : InPlace h h') (h₂ : InPlace h' h'') : InPlace h h'' where
  bDev := h₂.bDev.trans h₁.bDev
  bBlocknr := h₂.bBlocknr.trans h₁.bBlocknr
  bPrevHash := h₂.bPrevHash.trans h₁.bPrevHash
  bNextHash := h₂.bNextHash.trans h₁.bNextHash
  bPrevFree := h₂.bPrevFree.trans h₁.bPrevFree
  bNextFree := h₂.bNextFree.trans h₁.bNextFree

theorem key (h₁ : InPlace h h') : h'.key = h.key := by
  rw [BufferHead.key, h₁.bDev, h₁.bBlocknr]
  rfl

theorem bucket (h₁ : InPlace h h') : h'.bucket = h.bucket := by
  rw [BufferHead.bucket, h₁.bDev, h₁.bBlocknr]
  rfl

end BufferHead.InPlace

namespace Cache

abbrev nextHash (c : Cache n) (x : Fin n) : Option (Fin n) := (c.bh x).bNextHash
abbrev prevHash (c : Cache n) (x : Fin n) : Option (Fin n) := (c.bh x).bPrevHash
abbrev nextFree (c : Cache n) (x : Fin n) : Option (Fin n) := (c.bh x).bNextFree
abbrev prevFree (c : Cache n) (x : Fin n) : Option (Fin n) := (c.bh x).bPrevFree

/-- `chain k` lists hash chain `k`: the heads with a device that hash to it.  The head
`away`, if there is one, is on no chain. -/
structure Chains (c : Cache n) (away : Option (Fin n)) (chain : Fin NR_HASH → List (Fin n)) :
    Prop where
  linked : ∀ k, DChain c.nextHash c.prevHash (c.hashTable k) (chain k)
  mem : ∀ k b, b ∈ chain k ↔ away ≠ some b ∧ (c.bh b).bDev ≠ 0 ∧ (c.bh b).bucket = k
  off : ∀ b, away ≠ some b → (c.bh b).bDev = 0 → c.nextHash b = none ∧ c.prevHash b = none

structure WellFormed (c : Cache n) : Prop where
  chains : ∃ chain, Chains c none chain
  ring : ∃ r : Cycle (Fin n), Ring c.nextFree c.prevFree r ∧ ∀ b, b ∈ r

/-- The cache after stores to flags. -/
structure SameLinks (c c' : Cache n) : Prop where
  bh : ∀ x, (c.bh x).InPlace (c'.bh x)
  hashTable : c'.hashTable = c.hashTable
  freeList : c'.freeList = c.freeList

namespace SameLinks

variable {c c' c'' : Cache n}

theorem refl (c : Cache n) : SameLinks c c := ⟨fun _ => .refl _, rfl, rfl⟩

theorem trans (h₁ : SameLinks c c') (h₂ : SameLinks c' c'') : SameLinks c c'' :=
  ⟨fun x => (h₁.bh x).trans (h₂.bh x), h₂.hashTable.trans h₁.hashTable,
    h₂.freeList.trans h₁.freeList⟩

theorem store (c : Cache n) (p : Option (Fin n)) {f : BufferHead n → BufferHead n}
    (hf : ∀ h : BufferHead n, h.InPlace (f h)) : SameLinks c (c.store p f) := by
  refine ⟨fun x => ?_, rfl, rfl⟩
  rw [store_bh]
  split
  · exact hf _
  · exact .refl _

theorem nextHash (h : SameLinks c c') : c'.nextHash = c.nextHash :=
  funext fun x => (h.bh x).bNextHash

theorem prevHash (h : SameLinks c c') : c'.prevHash = c.prevHash :=
  funext fun x => (h.bh x).bPrevHash

theorem nextFree (h : SameLinks c c') : c'.nextFree = c.nextFree :=
  funext fun x => (h.bh x).bNextFree

theorem prevFree (h : SameLinks c c') : c'.prevFree = c.prevFree :=
  funext fun x => (h.bh x).bPrevFree

end SameLinks

theorem WellFormed.congr {c c' : Cache n} (h : WellFormed c) (hs : SameLinks c c') :
    WellFormed c' := by
  obtain ⟨⟨chain, hchain⟩, r, hr, hall⟩ := h
  refine ⟨⟨chain, ?_, fun k b => ?_, fun b haway hb => ?_⟩, r, hr.congr hs.nextFree hs.prevFree, hall⟩
  · rw [hs.nextHash, hs.prevHash, hs.hashTable]
    exact hchain.linked
  · rw [hchain.mem, (hs.bh b).bucket, (hs.bh b).bDev]
  · rw [hs.nextHash, hs.prevHash]
    exact hchain.off b haway ((hs.bh b).bDev ▸ hb)

/-! ## Looking up -/

theorem length_le {l : List (Fin n)} (h : l.Nodup) : l.length ≤ n := by
  simpa using h.length_le_card

/-- A look-up ends, and it finds the first head of its chain with the key. -/
theorem findBuffer_eq {c : Cache n} {chain : Fin NR_HASH → List (Fin n)}
    {away : Option (Fin n)} (h : Chains c away chain) (dev block : U32) :
    c.findBuffer dev block = some ((chain (hashfn dev block)).find? fun x =>
      decide ((c.bh x).bDev.zeroExtend 32 = dev ∧ (c.bh x).bBlocknr = block)) :=
  (h.linked _).toChain.search_eq (length_le (h.linked _).nodup)

/-- A head that is found has the key and a device. -/
theorem WellFormed.of_findBuffer {c : Cache n} (h : WellFormed c) {dev block : U32} {b : Fin n}
    (hb : c.findBuffer dev block = some (some b)) :
    (c.bh b).key = (dev, block) ∧ (c.bh b).bDev ≠ 0 := by
  obtain ⟨chain, hchain⟩ := h.chains
  rw [findBuffer_eq hchain, Option.some.injEq] at hb
  have hmem := List.mem_of_find?_eq_some hb
  have hkey := List.find?_some hb
  simp only [decide_eq_true_eq] at hkey
  exact ⟨Prod.ext hkey.1 hkey.2, ((hchain.mem _ b).mp hmem).2.1⟩

/-- A look-up that finds nothing: no head with a device has the key. -/
theorem WellFormed.of_findBuffer_none {c : Cache n} (h : WellFormed c) {dev block : U32}
    (hnone : c.findBuffer dev block = some none) {b : Fin n} (hb : (c.bh b).bDev ≠ 0) :
    (c.bh b).key ≠ (dev, block) := by
  obtain ⟨chain, hchain⟩ := h.chains
  rw [findBuffer_eq hchain, Option.some.injEq, List.find?_eq_none] at hnone
  intro hkey
  obtain ⟨rfl, rfl⟩ := Prod.mk.inj hkey
  exact hnone b ((hchain.mem _ b).mpr ⟨by simp, hb, rfl⟩) (by simp)

theorem WellFormed.findBuffer_total {c : Cache n} (h : WellFormed c) (dev block : U32) :
    ∃ r, c.findBuffer dev block = some r := by
  obtain ⟨chain, hchain⟩ := h.chains
  exact ⟨_, findBuffer_eq hchain dev block⟩

/-! ## Taking a head out -/

/-- One head is on no chain, and the ring is that of the others, unless there are none. -/
structure Detached (c : Cache n) (b : Fin n) : Prop where
  chains : ∃ chain, Chains c (some b) chain
  ring : (∃ l, Ring c.nextFree c.prevFree ↑(c.freeList :: l) ∧
      ∀ x, x ∈ c.freeList :: l ↔ x ≠ b) ∨
    (∀ x, x = b) ∧ c.prevFree b = some b

/-- The stores of `remove_from_queues`, as the links are after them. -/
structure Removed (c : Cache n) (b : Fin n) (c' : Cache n) : Prop where
  bh : ∀ x, c'.bh x =
    { c.bh x with
      bNextHash := if c.prevHash b = some x then c.nextHash b else c.nextHash x
      bPrevHash := if c.nextHash b = some x then c.prevHash b else c.prevHash x
      bNextFree := if c.prevFree b = some x then c.nextFree b else c.nextFree x
      bPrevFree := if c.nextFree b = some x then c.prevFree b else c.prevFree x }
  hashTable : ∀ k, c'.hashTable k = if k = (c.bh b).bucket ∧ c.hashTable k = some b then
    c.nextHash b else c.hashTable k
  freeList : some c'.freeList = if c.freeList = b then c.nextFree b else some c.freeList

theorem removeFromQueues_spec {c : Cache n} {b p q : Fin n} (hp : c.prevFree b = some p)
    (hq : c.nextFree b = some q) (hnh : c.nextHash b ≠ some b) (hph : c.prevHash b ≠ some b) :
    ∃ c', c.removeFromQueues b = some c' ∧ Removed c b c' := by
  obtain ⟨c₁, h₁⟩ : ∃ c₁, c₁ = c.store (c.nextHash b) fun h =>
      { h with bPrevHash := c.prevHash b } := ⟨_, rfl⟩
  obtain ⟨c₂, h₂⟩ : ∃ c₂, c₂ = c₁.store (c₁.prevHash b) fun h =>
      { h with bNextHash := c₁.nextHash b } := ⟨_, rfl⟩
  obtain ⟨c₃, h₃⟩ : ∃ c₃ : Cache n, c₃ =
      if c₂.hashTable (c₂.bh b).bucket = some b then
        { c₂ with hashTable := Function.update c₂.hashTable (c₂.bh b).bucket (c₂.nextHash b) }
      else c₂ := ⟨_, rfl⟩
  obtain ⟨c₅, h₅⟩ : ∃ c₅, c₅ = (c₃.store (some p) fun h => { h with bNextFree := some q }).store
      (some q) fun h => { h with bPrevFree := some p } := ⟨_, rfl⟩
  have hb₁ : c₁.bh b = c.bh b := by rw [h₁, store_bh, if_neg hnh]
  have hph₁ : c₁.prevHash b = c.prevHash b := by rw [prevHash, hb₁]
  have hb₂ : c₂.bh b = c.bh b := by rw [h₂, store_bh, hph₁, if_neg hph, hb₁]
  have hbh : c₃.bh = c₂.bh := by
    rw [h₃]
    split <;> rfl
  have hpq : (c₃.bh b).bPrevFree = some p ∧ (c₃.bh b).bNextFree = some q := by
    rw [hbh, hb₂]
    exact ⟨hp, hq⟩
  have htable : c₅.hashTable = c₃.hashTable := by simp [h₅]
  have hfree : c₅.freeList = c.freeList := by
    have h₃₂ : c₃.freeList = c₂.freeList := by
      rw [h₃]
      split <;> rfl
    simp [h₅, h₃₂, h₂, h₁]
  have hx : ∀ x, c₅.bh x =
      { c.bh x with
        bNextHash := if c.prevHash b = some x then c.nextHash b else c.nextHash x
        bPrevHash := if c.nextHash b = some x then c.prevHash b else c.prevHash x
        bNextFree := if c.prevFree b = some x then c.nextFree b else c.nextFree x
        bPrevFree := if c.nextFree b = some x then c.prevFree b else c.prevFree x } := by
    intro x
    rw [h₅, store_bh, store_bh, hbh, h₂, store_bh, hph₁, h₁, store_bh, hp, hq, ← h₁,
      show c₁.nextHash b = c.nextHash b by rw [nextHash, hb₁]]
    split_ifs <;> rfl
  have hk : ∀ k, c₅.hashTable k = if k = (c.bh b).bucket ∧ c.hashTable k = some b then
      c.nextHash b else c.hashTable k := by
    intro k
    have h₂t : c₂.hashTable = c.hashTable := by simp [h₂, h₁]
    rw [htable, h₃, h₂t, hb₂, show c₂.nextHash b = c.nextHash b by rw [nextHash, hb₂]]
    by_cases hkb : k = (c.bh b).bucket
    · subst hkb
      split_ifs <;> simp_all
    · split_ifs <;> simp_all
  refine ⟨if c₅.freeList = b then { c₅ with freeList := q } else c₅, ?_, ?_, ?_, ?_⟩
  · simp only [removeFromQueues, ← h₁, ← h₂, ← h₃, hpq.1, hpq.2, ← h₅]
  · intro x
    rw [← hx x]
    split <;> rfl
  · intro k
    rw [← hk k]
    split <;> rfl
  · rw [hfree, hq]
    split
    · rfl
    · rw [hfree]

/-- The neighbours of a head on its chain hash to where it does, and have a device. -/
theorem Chains.prevHash_mem {c : Cache n} {away : Option (Fin n)}
    {chain : Fin NR_HASH → List (Fin n)} (h : Chains c away chain) {b x : Fin n}
    (hb : away ≠ some b) (hx : c.prevHash b = some x) : x ∈ chain (c.bh b).bucket := by
  by_cases hdev : (c.bh b).bDev = 0
  · rw [(h.off b hb hdev).2] at hx
    cases hx
  · exact ((h.linked _).of_prev ((h.mem _ b).mpr ⟨hb, hdev, rfl⟩) hx).1

theorem Chains.nextHash_mem {c : Cache n} {away : Option (Fin n)}
    {chain : Fin NR_HASH → List (Fin n)} (h : Chains c away chain) {b x : Fin n}
    (hb : away ≠ some b) (hx : c.nextHash b = some x) : x ∈ chain (c.bh b).bucket := by
  by_cases hdev : (c.bh b).bDev = 0
  · rw [(h.off b hb hdev).1] at hx
    cases hx
  · exact ((h.linked _).of_next ((h.mem _ b).mpr ⟨hb, hdev, rfl⟩) hx).1

theorem Chains.not_self {c : Cache n} {chain : Fin NR_HASH → List (Fin n)}
    (h : Chains c none chain) (b : Fin n) :
    c.nextHash b ≠ some b ∧ c.prevHash b ≠ some b := by
  by_cases hdev : (c.bh b).bDev = 0
  · rw [(h.off b (by simp) hdev).1, (h.off b (by simp) hdev).2]
    simp
  · have hmem := (h.mem _ b).mpr ⟨by simp, hdev, rfl⟩
    exact ⟨(h.linked _).next_ne_self hmem, (h.linked _).prev_ne_self hmem⟩

theorem Removed.alike {c c' : Cache n} {b : Fin n} (hr : Removed c b c') (x : Fin n) :
    (c.bh x).Alike (c'.bh x) := by
  rw [hr.bh x]
  exact ⟨rfl, rfl, rfl, rfl, rfl, rfl, rfl⟩

theorem Removed.chains {c c' : Cache n} {b : Fin n} (hr : Removed c b c')
    {chain : Fin NR_HASH → List (Fin n)} (h : Chains c none chain) :
    Chains c' (some b) fun k => (chain k).erase b := by
  have hnext : ∀ x, c'.nextHash x = if c.prevHash b = some x then c.nextHash b
      else c.nextHash x := fun x => by rw [nextHash, hr.bh x]
  have hprev : ∀ x, c'.prevHash x = if c.nextHash b = some x then c.prevHash b
      else c.prevHash x := fun x => by rw [prevHash, hr.bh x]
  constructor
  case linked =>
    intro k
    by_cases hb : b ∈ chain k
    · have hk : (c.bh b).bucket = k := ((h.mem k b).mp hb).2.2
      have hlinked := h.linked k
      obtain ⟨l₁, l₂, hl⟩ := List.append_of_mem hb
      have hb₁ : b ∉ l₁ := by
        have hnodup := hlinked.nodup
        rw [hl] at hnodup
        intro hmem
        exact (List.nodup_append.mp hnodup).2.2 b hmem b (by simp) rfl
      rw [hl, List.erase_append_right _ hb₁, List.erase_cons_head]
      rw [hl] at hlinked
      apply hlinked.remove _ (fun x _ => hnext x) (fun x _ => hprev x)
      rw [hr.hashTable]
      simp [hk]
    · rw [List.erase_of_not_mem hb]
      have hout : ∀ x ∈ chain k, (c.bh b).bucket = k → (c.bh b).bDev = 0 := by
        intro x _ hbk
        by_contra hdev
        exact hb ((h.mem k b).mpr ⟨by simp, hdev, hbk⟩)
      have hhash : c'.hashTable k = c.hashTable k := by
        rw [hr.hashTable, if_neg]
        rintro ⟨hkb, ho⟩
        obtain ⟨m, hm⟩ := (ho ▸ (h.linked k).toChain).exists_cons
        exact hb (by simp [hm])
      rw [hhash]
      refine (h.linked k).congr (fun x hx => ?_) (fun x hx => ?_)
      · rw [hnext, if_neg]
        intro e
        have hkx := ((h.mem _ x).mp (h.prevHash_mem (by simp) e)).2.2
        have hbk : (c.bh b).bucket = k := hkx.symm.trans ((h.mem k x).mp hx).2.2
        rw [(h.off b (by simp) (hout x hx hbk)).2] at e
        cases e
      · rw [hprev, if_neg]
        intro e
        have hkx := ((h.mem _ x).mp (h.nextHash_mem (by simp) e)).2.2
        have hbk : (c.bh b).bucket = k := hkx.symm.trans ((h.mem k x).mp hx).2.2
        rw [(h.off b (by simp) (hout x hx hbk)).1] at e
        cases e
  case mem =>
    intro k x
    rw [(h.linked k).nodup.mem_erase_iff, h.mem, (hr.alike x).bucket, (hr.alike x).bDev]
    simp [eq_comm]
  case off =>
    intro x hx hdev
    have hdev' : (c.bh x).bDev = 0 := (hr.alike x).bDev ▸ hdev
    obtain ⟨hn, hp⟩ := h.off x (by simp) hdev'
    constructor
    · rw [hnext, if_neg, hn]
      intro e
      exact ((h.mem _ x).mp (h.prevHash_mem (by simp) e)).2.1 hdev'
    · rw [hprev, if_neg, hp]
      intro e
      exact ((h.mem _ x).mp (h.nextHash_mem (by simp) e)).2.1 hdev'

theorem Removed.ring {c c' : Cache n} {b : Fin n} (hr : Removed c b c')
    {r : Cycle (Fin n)} (h : Ring c.nextFree c.prevFree r) (hall : ∀ x, x ∈ r) :
    (∃ l, Ring c'.nextFree c'.prevFree ↑(c'.freeList :: l) ∧
      ∀ x, x ∈ c'.freeList :: l ↔ x ≠ b) ∨
    (∀ x, x = b) ∧ c'.prevFree b = some b := by
  have hnext : ∀ x, c'.nextFree x = if c.prevFree b = some x then c.nextFree b
      else c.nextFree x := fun x => by rw [nextFree, hr.bh x]
  have hprev : ∀ x, c'.prevFree x = if c.nextFree b = some x then c.prevFree b
      else c.prevFree x := fun x => by rw [prevFree, hr.bh x]
  obtain ⟨l, rfl⟩ := cycle_at (hall b)
  obtain ⟨hlinks, hback⟩ := h.around
  cases l with
  | nil =>
    have hbb := hback b (by simp)
    refine Or.inr ⟨fun x => by simpa using hall x, ?_⟩
    rw [hprev, if_pos hbb.1]
    exact hbb.2
  | cons a m =>
    have hba := (List.isChain_cons_cons.mp hlinks).1
    have hnodup := (List.nodup_cons.mp (Cycle.nodup_coe_iff.mp h.nodup)).1
    have hmem : ∀ x, x ∈ a :: m ↔ x ≠ b := by
      intro x
      constructor
      · rintro hx rfl
        exact hnodup hx
      · intro hx
        have hx' := Cycle.mem_coe_iff.mp (hall x)
        exact (List.mem_cons.mp hx').resolve_left hx
    have hfree : c'.freeList ≠ b := by
      have hf := hr.freeList
      intro e
      rw [e] at hf
      split at hf
      · rw [hba.1, Option.some.injEq] at hf
        exact (hmem a).mp (by simp) hf.symm
      · next hne => exact hne (Option.some.inj hf).symm
    have hring : Ring c'.nextFree c'.prevFree ↑(a :: m) :=
      h.remove (fun x _ => hnext x) (fun x _ => hprev x)
    obtain ⟨l', hl'⟩ := cycle_at (Cycle.mem_coe_iff.mpr ((hmem _).mpr hfree))
    refine Or.inl ⟨l', hl' ▸ hring, fun x => ?_⟩
    rw [← hmem x, ← Cycle.mem_coe_iff, ← Cycle.mem_coe_iff, hl']

theorem WellFormed.remove {c : Cache n} (h : WellFormed c) (b : Fin n) :
    ∃ c', c.removeFromQueues b = some c' ∧ Removed c b c' ∧ Detached c' b := by
  obtain ⟨⟨chain, hchain⟩, r, hring, hall⟩ := h
  obtain ⟨p, q, _, _, hp, hq⟩ := hring.neighbours (hall b)
  obtain ⟨hn, hp'⟩ := hchain.not_self b
  obtain ⟨c', hc', hr⟩ := removeFromQueues_spec hp.2 hq.1 hn hp'
  exact ⟨c', hc', hr, ⟨_, hr.chains hchain⟩, hr.ring hring hall⟩

/-! ## Putting it back -/

/-- The stores of `insert_into_queues`, as the links are after them. -/
structure Inserted (c : Cache n) (b : Fin n) (c' : Cache n) : Prop where
  bh : ∀ x, c'.bh x =
    { c.bh x with
      bNextHash := if x = b then
          if (c.bh b).bDev = 0 then none else c.hashTable (c.bh b).bucket
        else c.nextHash x
      bPrevHash := if (c.bh b).bDev ≠ 0 ∧ c.hashTable (c.bh b).bucket = some x then some b
        else if x = b then none else c.prevHash x
      bNextFree := if x = b then some c.freeList
        else if c.prevFree c.freeList = some x then some b else c.nextFree x
      bPrevFree := if x = c.freeList then some b
        else if x = b then c.prevFree c.freeList else c.prevFree x }
  hashTable : ∀ k, c'.hashTable k = if (c.bh b).bDev ≠ 0 ∧ k = (c.bh b).bucket then some b
    else c.hashTable k
  freeList : c'.freeList = c.freeList

/-- The first half of `insert_into_queues`: the head is linked before the first of the free
list, and its hash links are cleared. -/
theorem linkFree_bh {c c₁ c₂ c₃ c₄ : Cache n} {b f : Fin n} (hf : f = b ∨ c.prevFree f ≠ some b)
    (h₁ : c₁ = c.store (some b) fun h => { h with bNextFree := some f })
    (h₂ : c₂ = c₁.store (some b) fun h => { h with bPrevFree := c₁.prevFree f })
    (h₃ : c₃ = c₂.store (c₂.prevFree f) fun h => { h with bNextFree := some b })
    (h₄ : c₄ = (c₃.store (some f) fun h => { h with bPrevFree := some b }).store (some b)
      fun h => { h with bPrevHash := none, bNextHash := none }) (x : Fin n) :
    c₄.bh x =
      { c.bh x with
        bNextHash := if x = b then none else c.nextHash x
        bPrevHash := if x = b then none else c.prevHash x
        bNextFree := if x = b then some f
          else if c.prevFree f = some x then some b else c.nextFree x
        bPrevFree := if x = f then some b
          else if x = b then c.prevFree f else c.prevFree x } := by
  have hpf₁ : c₁.prevFree f = c.prevFree f := by
    rw [h₁, prevFree, store_bh]
    split <;> rfl
  have hpf₂ : c₂.prevFree f = c.prevFree f := by
    rw [h₂, prevFree, store_bh]
    split
    · exact hpf₁
    · exact hpf₁
  rw [h₄, store_bh, store_bh, h₃, store_bh, hpf₂, h₂, store_bh, hpf₁, h₁, store_bh]
  by_cases hxb : x = b
  · subst hxb
    by_cases hxf : x = f
    · subst hxf
      split_ifs <;> simp_all
    · have hne : c.prevFree f ≠ some x := hf.resolve_left fun e => hxf e.symm
      simp [hxf, hne, Ne.symm hxf]
  · have hbx : some b ≠ some x := fun e => hxb (Option.some.inj e).symm
    by_cases hxf : x = f
    · subst hxf
      simp only [hxb, hbx, if_false, if_true]
      split <;> rfl
    · have hfx : some f ≠ some x := fun e => hxf (Option.some.inj e).symm
      simp only [hxb, hbx, hxf, hfx, if_false]
      split <;> rfl

theorem insertIntoQueues_spec {c : Cache n} {b : Fin n}
    (hf : c.freeList = b ∨ c.prevFree c.freeList ≠ some b) :
    Inserted c b (c.insertIntoQueues b) := by
  obtain ⟨f, hfl⟩ : ∃ f, f = c.freeList := ⟨_, rfl⟩
  obtain ⟨c₁, h₁⟩ : ∃ c₁, c₁ = c.store (some b) fun h => { h with bNextFree := some f } :=
    ⟨_, rfl⟩
  obtain ⟨c₂, h₂⟩ : ∃ c₂, c₂ = c₁.store (some b) fun h =>
      { h with bPrevFree := c₁.prevFree f } := ⟨_, rfl⟩
  obtain ⟨c₃, h₃⟩ : ∃ c₃, c₃ = c₂.store (c₂.prevFree f) fun h =>
      { h with bNextFree := some b } := ⟨_, rfl⟩
  obtain ⟨c₅, h₅⟩ : ∃ c₅, c₅ = (c₃.store (some f) fun h => { h with bPrevFree := some b }).store
      (some b) fun h => { h with bPrevHash := none, bNextHash := none } := ⟨_, rfl⟩
  have hx := linkFree_bh (hfl ▸ hf) h₁ h₂ h₃ h₅
  have htable : c₅.hashTable = c.hashTable := by simp [h₅, h₃, h₂, h₁]
  have hfree : c₅.freeList = c.freeList := by simp [h₅, h₃, h₂, h₁]
  have hdev : (c₅.bh b).bDev = (c.bh b).bDev := by rw [hx b]
  have hbk : (c₅.bh b).bucket = (c.bh b).bucket := by
    rw [hx b]
    rfl
  have hins : c.insertIntoQueues b =
      if (c₅.bh b).bDev = 0 then c₅
      else
        ({ c₅.store (some b) (fun h => { h with bNextHash := c₅.hashTable (c₅.bh b).bucket })
            with hashTable := Function.update c₅.hashTable (c₅.bh b).bucket (some b) } :
          Cache n).store (c₅.hashTable (c₅.bh b).bucket) fun h => { h with bPrevHash := some b } := by
    simp only [insertIntoQueues, ← hfl, ← h₁, ← h₂, ← h₃, ← h₅]
    simp [store_bh]
  rw [hins, hdev, hbk, htable]
  by_cases h0 : (c.bh b).bDev = 0
  · rw [if_pos h0]
    refine ⟨fun x => ?_, fun k => ?_, hfree⟩
    · rw [hx x]
      simp [h0, hfl]
    · simp [h0, htable]
  · rw [if_neg h0]
    refine ⟨fun x => ?_, fun k => ?_, hfree⟩
    · obtain ⟨c₆, h₆⟩ : ∃ c₆, c₆ = c₅.store (some b) fun h =>
          { h with bNextHash := c.hashTable (c.bh b).bucket } := ⟨_, rfl⟩
      rw [store_bh, ← h₆]
      by_cases hxb : x = b
      · subst hxb
        have hx₆ : c₆.bh x = { c₅.bh x with bNextHash := c.hashTable (c.bh x).bucket } := by
          rw [h₆, store_bh, if_pos rfl]
        rw [hx₆, hx x]
        simp only [h0, hfl, if_true, if_false, ne_eq, not_false_eq_true, true_and]
        split <;> rfl
      · have hx₆ : c₆.bh x = c₅.bh x := by
          rw [h₆, store_bh, if_neg]
          exact fun e => hxb (Option.some.inj e).symm
        rw [hx₆, hx x]
        simp only [h0, hxb, hfl, if_false, ne_eq, not_false_eq_true, true_and]
        split <;> rfl
    · simp only [store_hashTable, h0, ne_eq, not_false_eq_true, true_and]
      exact Function.update_apply _ _ _ _

theorem Inserted.alike {c c' : Cache n} {b : Fin n} (hi : Inserted c b c') (x : Fin n) :
    (c.bh x).Alike (c'.bh x) := by
  rw [hi.bh x]
  exact ⟨rfl, rfl, rfl, rfl, rfl, rfl, rfl⟩

theorem Inserted.chains {c c' : Cache n} {b : Fin n} (hi : Inserted c b c')
    {chain : Fin NR_HASH → List (Fin n)} (h : Chains c (some b) chain) :
    Chains c' none fun k => if (c.bh b).bDev ≠ 0 ∧ k = (c.bh b).bucket then b :: chain k
      else chain k := by
  have hout : ∀ k, b ∉ chain k := fun k hb => ((h.mem k b).mp hb).1 rfl
  have hne : ∀ {k x}, x ∈ chain k → x ≠ b := fun hx e => hout _ (e ▸ hx)
  have hnext : ∀ x, c'.nextHash x = if x = b then
      if (c.bh b).bDev = 0 then none else c.hashTable (c.bh b).bucket
      else c.nextHash x := fun x => by rw [nextHash, hi.bh x]
  have hprev : ∀ x, c'.prevHash x = if (c.bh b).bDev ≠ 0 ∧
      c.hashTable (c.bh b).bucket = some x then some b
      else if x = b then none else c.prevHash x := fun x => by rw [prevHash, hi.bh x]
  have hheadmem : ∀ {k x}, c.hashTable k = some x → x ∈ chain k := by
    intro k x hx
    obtain ⟨m, hm⟩ := (hx ▸ (h.linked k).toChain).exists_cons
    simp [hm]
  constructor
  case linked =>
    intro k
    rw [hi.hashTable]
    by_cases hk : (c.bh b).bDev ≠ 0 ∧ k = (c.bh b).bucket
    · obtain ⟨hdev, rfl⟩ := hk
      simp only [hdev, ne_eq, not_false_eq_true, true_and, if_true]
      refine (h.linked _).push (hout _) ?_ ?_ (fun x hx => ?_) (fun x hx => ?_)
      · rw [hnext, if_pos rfl, if_neg hdev]
      · rw [hprev, if_neg, if_pos rfl]
        rintro ⟨_, ho⟩
        exact hout _ (hheadmem ho)
      · rw [hnext, if_neg (hne hx)]
      · rw [hprev, if_neg (hne hx)]
        simp only [hdev, ne_eq, not_false_eq_true, true_and]
    · rw [if_neg hk, if_neg hk]
      refine (h.linked k).congr (fun x hx => ?_) (fun x hx => ?_)
      · rw [hnext, if_neg (hne hx)]
      · rw [hprev, if_neg, if_neg (hne hx)]
        rintro ⟨hdev, ho⟩
        have hkx := ((h.mem _ x).mp (hheadmem ho)).2.2
        exact hk ⟨hdev, ((h.mem k x).mp hx).2.2.symm.trans hkx⟩
  case mem =>
    intro k x
    rw [(hi.alike x).bDev, (hi.alike x).bucket]
    by_cases hxb : x = b
    · subst hxb
      by_cases hk : (c.bh x).bDev ≠ 0 ∧ k = (c.bh x).bucket
      · rw [if_pos hk]
        exact ⟨fun _ => ⟨by simp, hk.1, hk.2.symm⟩, fun _ => List.mem_cons_self⟩
      · rw [if_neg hk]
        exact ⟨fun hx => absurd hx (hout k), fun hx => absurd ⟨hx.2.1, hx.2.2.symm⟩ hk⟩
    · have hmem : x ∈ (if (c.bh b).bDev ≠ 0 ∧ k = (c.bh b).bucket then b :: chain k
          else chain k) ↔ x ∈ chain k := by
        split
        · exact ⟨fun hx => (List.mem_cons.mp hx).resolve_left hxb, List.mem_cons_of_mem b⟩
        · rfl
      rw [hmem, h.mem]
      simp [Ne.symm hxb]
  case off =>
    intro x _ hdev
    rw [(hi.alike x).bDev] at hdev
    rw [hnext, hprev]
    by_cases hxb : x = b
    · subst hxb
      simp [hdev]
    · obtain ⟨hn, hp⟩ := h.off x (by simpa using Ne.symm hxb) hdev
      rw [if_neg hxb, hn, if_neg, if_neg hxb, hp]
      · exact ⟨rfl, rfl⟩
      · rintro ⟨_, ho⟩
        exact ((h.mem _ x).mp (hheadmem ho)).2.1 hdev

theorem Inserted.ring {c c' : Cache n} {b : Fin n} (hi : Inserted c b c')
    (h : (∃ l, Ring c.nextFree c.prevFree ↑(c.freeList :: l) ∧
      ∀ x, x ∈ c.freeList :: l ↔ x ≠ b) ∨ (∀ x, x = b) ∧ c.prevFree b = some b) :
    ∃ r : Cycle (Fin n), Ring c'.nextFree c'.prevFree r ∧ ∀ x, x ∈ r := by
  have hnext : ∀ x, c'.nextFree x = if x = b then some c.freeList
      else if c.prevFree c.freeList = some x then some b else c.nextFree x :=
    fun x => by rw [nextFree, hi.bh x]
  have hprev : ∀ x, c'.prevFree x = if x = c.freeList then some b
      else if x = b then c.prevFree c.freeList else c.prevFree x :=
    fun x => by rw [prevFree, hi.bh x]
  rcases h with ⟨l, hring, hmem⟩ | ⟨hall, _⟩
  · have hb : b ∉ c.freeList :: l := fun hb => (hmem b).mp hb rfl
    have hfb : c.freeList ≠ b := (hmem _).mp (by simp)
    refine ⟨↑(b :: c.freeList :: l), hring.insert hb ?_ ?_ (fun x hx => ?_) (fun x hx => ?_),
      fun x => ?_⟩
    · rw [hnext, if_pos rfl]
    · rw [hprev, if_neg (Ne.symm hfb), if_pos rfl]
    · rw [hnext, if_neg ((hmem x).mp hx)]
    · rw [hprev, if_neg ((hmem x).mp hx)]
    · by_cases hxb : x = b
      · simp [hxb]
      · exact Cycle.mem_coe_iff.mpr (List.mem_cons_of_mem b ((hmem x).mpr hxb))
  · have hfb : c.freeList = b := hall _
    refine ⟨↑[b], Ring.single ?_ ?_, fun x => by simp [hall x]⟩
    · rw [hnext, if_pos rfl, hfb]
    · rw [hprev, if_pos hfb.symm]

theorem Detached.insert {c : Cache n} {b : Fin n} (h : Detached c b) :
    Inserted c b (c.insertIntoQueues b) ∧ WellFormed (c.insertIntoQueues b) := by
  obtain ⟨⟨chain, hchain⟩, hring⟩ := h
  have hf : c.freeList = b ∨ c.prevFree c.freeList ≠ some b := by
    rcases hring with ⟨l, hr, hmem⟩ | ⟨hall, _⟩
    · right
      obtain ⟨p, _, hp, _, hpf, _⟩ := hr.neighbours (Cycle.mem_coe_iff.mpr List.mem_cons_self)
      rw [hpf.2]
      intro e
      exact (hmem p).mp (Cycle.mem_coe_iff.mp hp) (Option.some.inj e)
    · exact Or.inl (hall _)
  have hi := insertIntoQueues_spec hf
  exact ⟨hi, ⟨_, hi.chains hchain⟩, hi.ring hring⟩

/-- Neither structure depends on the key or the flags of the head that is in neither. -/
theorem Detached.congr {c c' : Cache n} {b : Fin n} (h : Detached c b)
    (hb : ∀ x, x ≠ b → c'.bh x = c.bh x)
    (hlinks : c'.nextFree b = c.nextFree b ∧ c'.prevFree b = c.prevFree b)
    (ht : c'.hashTable = c.hashTable) (hf : c'.freeList = c.freeList) : Detached c' b := by
  obtain ⟨⟨chain, hchain⟩, hring⟩ := h
  have hmem : ∀ {k x}, x ∈ chain k → x ≠ b := fun hx e => ((hchain.mem _ _).mp hx).1 (e ▸ rfl)
  have hnf : c'.nextFree = c.nextFree := by
    funext x
    by_cases hx : x = b
    · rw [hx, hlinks.1]
    · rw [nextFree, hb x hx]
  have hpf : c'.prevFree = c.prevFree := by
    funext x
    by_cases hx : x = b
    · rw [hx, hlinks.2]
    · rw [prevFree, hb x hx]
  refine ⟨⟨chain, fun k => ?_, fun k x => ?_, fun x hx hdev => ?_⟩, ?_⟩
  · rw [ht]
    refine (hchain.linked k).congr (fun x hx => ?_) (fun x hx => ?_)
    · rw [nextHash, hb x (hmem hx)]
    · rw [prevHash, hb x (hmem hx)]
  · rw [hchain.mem]
    by_cases hx : x = b
    · simp [hx]
    · rw [hb x hx]
  · have hxb : x ≠ b := fun e => hx (e ▸ rfl)
    rw [hb x hxb] at hdev
    rw [nextHash, prevHash, hb x hxb]
    exact hchain.off x hx hdev
  · rw [hnf, hpf, hf]
    exact hring

/-! ## Claiming a head -/

/-- `getblk`'s last block: the head `b` becomes the buffer of the block, counted once,
neither dirty nor up to date, and every other head keeps its key and its flags. -/
structure Claimed (c : Cache n) (b : Fin n) (dev block : U32) (c' : Cache n) : Prop where
  self : BufferHead.Alike
    { c.bh b with
      bDev := dev.setWidth 16, bBlocknr := block, bCount := 1, bDirt := 0, bUptodate := 0 }
    (c'.bh b)
  other : ∀ x, x ≠ b → (c.bh x).Alike (c'.bh x)

theorem store_other {c : Cache n} {b x : Fin n} (f : BufferHead n → BufferHead n) (hx : x ≠ b) :
    (c.store (some b) f).bh x = c.bh x := by
  rw [store_bh, if_neg]
  exact fun e => hx (Option.some.inj e).symm

theorem store_self (c : Cache n) (b : Fin n) (f : BufferHead n → BufferHead n) :
    (c.store (some b) f).bh b = f (c.bh b) := by
  rw [store_bh, if_pos rfl]

/-- A store keeps a field that it does not assign. -/
theorem store_keeps {β : Type*} {f : BufferHead n → BufferHead n} {g : BufferHead n → β}
    (hg : ∀ h, g (f h) = g h) (c : Cache n) (p : Option (Fin n)) (x : Fin n) :
    g ((c.store p f).bh x) = g (c.bh x) := by
  rw [store_bh]
  split
  · exact hg _
  · rfl

/-- The stores of `claim` to the flags, and later to the key, of its head. -/
def fresh (c : Cache n) (b : Fin n) : Cache n :=
  c.store (some b) fun h => { h with bCount := 1, bDirt := 0, bUptodate := 0 }

def rekey (c : Cache n) (b : Fin n) (dev block : U32) : Cache n :=
  c.store (some b) fun h => { h with bDev := dev.setWidth 16, bBlocknr := block }

theorem sameLinks_fresh (c : Cache n) (b : Fin n) : SameLinks c (c.fresh b) :=
  .store c _ fun _ => ⟨rfl, rfl, rfl, rfl, rfl, rfl⟩

/-- `c₂` is the cache when the head has been taken out, and `c'` when it is back. -/
structure ClaimSteps (c : Cache n) (b : Fin n) (dev block : U32) (c₂ c' : Cache n) : Prop where
  remove : (c.fresh b).removeFromQueues b = some c₂
  removed : Removed (c.fresh b) b c₂
  detached : Detached (c₂.rekey b dev block) b
  insert : c' = (c₂.rekey b dev block).insertIntoQueues b
  inserted : Inserted (c₂.rekey b dev block) b c'

theorem Detached.rekey {c : Cache n} {b : Fin n} (h : Detached c b) (dev block : U32) :
    Detached (c.rekey b dev block) b := by
  apply h.congr
  · intro x hx
    rw [Cache.rekey, store_other _ hx]
  · exact ⟨by rw [nextFree, Cache.rekey, store_self], by rw [prevFree, Cache.rekey, store_self]⟩
  · rfl
  · rfl

theorem WellFormed.claim_steps {c : Cache n} (h : WellFormed c) (b : Fin n) (dev block : U32) :
    ∃ c₂ c', c.claim b dev block = some c' ∧ ClaimSteps c b dev block c₂ c' ∧ WellFormed c' := by
  obtain ⟨c₂, hc₂, hr, hdet⟩ := (h.congr (sameLinks_fresh c b)).remove b
  obtain ⟨hi, hwf⟩ := (hdet.rekey dev block).insert
  refine ⟨c₂, _, ?_, ⟨hc₂, hr, hdet.rekey dev block, rfl, hi⟩, hwf⟩
  rw [Cache.claim, ← fresh, hc₂]
  rfl

theorem ClaimSteps.claimed {c c₂ c' : Cache n} {b : Fin n} {dev block : U32}
    (h : ClaimSteps c b dev block c₂ c') : Claimed c b dev block c' := by
  refine ⟨?_, fun x hx => ?_⟩
  · have hra := h.removed.alike b
    have hia := h.inserted.alike b
    rw [Cache.rekey, store_self] at hia
    rw [fresh, store_self] at hra
    exact ⟨hia.bData.trans hra.bData, hia.bBlocknr, hia.bDev, hia.bUptodate.trans hra.bUptodate,
      hia.bDirt.trans hra.bDirt, hia.bCount.trans hra.bCount, hia.bLock.trans hra.bLock⟩
  · have hra := h.removed.alike x
    have hia := h.inserted.alike x
    rw [Cache.rekey, store_other _ hx] at hia
    rw [fresh, store_other _ hx] at hra
    exact hra.trans hia

theorem WellFormed.claim {c : Cache n} (h : WellFormed c) (b : Fin n) (dev block : U32) :
    ∃ c', c.claim b dev block = some c' ∧ Claimed c b dev block c' ∧ WellFormed c' := by
  obtain ⟨c₂, c', hc', hsteps, hwf⟩ := h.claim_steps b dev block
  exact ⟨c', hc', hsteps.claimed, hwf⟩

/-! ## The cache that `buffer_init` builds -/

theorem bufferInit_linked [NeZero n] (bufferEnd : U32) (blocknr : Fin n → U32) {x y : Fin n}
    (h : x + 1 = y) :
    Linked (bufferInit bufferEnd blocknr).nextFree (bufferInit bufferEnd blocknr).prevFree x y :=
  ⟨congrArg some h, congrArg some (sub_eq_of_eq_add h.symm)⟩

theorem bufferInit_ring [NeZero n] (bufferEnd : U32) (blocknr : Fin n → U32) :
    Ring (bufferInit bufferEnd blocknr).nextFree (bufferInit bufferEnd blocknr).prevFree
      ↑(List.finRange n) := by
  have hstep : ∀ i (h : i + 1 < n), (⟨i, by omega⟩ : Fin n) + 1 = ⟨i + 1, h⟩ := by
    intro i h
    apply Fin.ext
    rw [Fin.val_add, Fin.val_one', Nat.add_mod_mod, Nat.mod_eq_of_lt h]
  have hnodup := List.nodup_finRange n
  have hlinks : (List.finRange n).IsChain
      (Linked (bufferInit bufferEnd blocknr).nextFree
        (bufferInit bufferEnd blocknr).prevFree) := by
    rw [List.isChain_iff_getElem]
    intro i hi
    apply bufferInit_linked
    simpa using hstep i (by simpa using hi)
  obtain ⟨m, rfl⟩ := Nat.exists_eq_succ_of_ne_zero (NeZero.ne n)
  have hback : ∀ x ∈ (List.finRange (m + 1)).getLast?, x + 1 = 0 := by
    intro x hx
    rw [List.finRange_succ_last, List.getLast?_append_cons] at hx
    have hxl : x = Fin.last m := by simpa using hx.symm
    rw [hxl]
    exact Fin.last_add_one m
  rw [List.finRange_succ] at hlinks hnodup hback ⊢
  exact Ring.of_around hlinks (fun x hx => bufferInit_linked _ _ (hback x hx)) hnodup

theorem wellFormed_bufferInit [NeZero n] (bufferEnd : U32) (blocknr : Fin n → U32) :
    WellFormed (bufferInit bufferEnd blocknr) := by
  refine ⟨⟨fun _ => [], fun k => DChain.empty _ _, fun k b => ?_, fun b _ _ => ⟨rfl, rfl⟩⟩,
    ↑(List.finRange n), bufferInit_ring bufferEnd blocknr,
    fun b => Cycle.mem_coe_iff.mpr (List.mem_finRange b)⟩
  simp [bufferInit]

end Cache

end Fs
end CherryOS
