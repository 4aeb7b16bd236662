import CherryOS.Io.Unique

/-!
# Null pointers

The pointers to heads that each step of a call follows.  All but one are followed after a
test, or lead along the free list, which is a ring.  `insert_into_queues` puts a head in front
of the chain of its block and then writes to the one that was in front, also when the chain
was empty.
-/

namespace CherryOS
namespace Fs
namespace Cache

open Kernel (U32)
open Lib

variable {n : Nat}

/-- A pointer that is tested and followed. -/
def tested (p : Option (Fin n)) : List (Option (Fin n)) := if p = none then [] else [p]

/-- The pointers of the loop in `find_buffer`, from `p` on. -/
def walkRefs (next : Fin n → Option (Fin n)) (hit : Fin n → Bool) :
    Nat → Option (Fin n) → List (Option (Fin n))
  | 0, _ | _, none => []
  | fuel + 1, some x => some x :: if hit x then [] else walkRefs next hit fuel (next x)

def findRefs (c : Cache n) (dev block : U32) : List (Option (Fin n)) :=
  walkRefs (fun x => (c.bh x).bNextHash)
    (fun x => decide ((c.bh x).bDev.zeroExtend 32 = dev ∧ (c.bh x).bBlocknr = block)) n
    (c.hashTable (hashfn dev block))

def removeRefs (c : Cache n) (b : Fin n) : List (Option (Fin n)) :=
  let c₁ := c.store (c.bh b).bNextHash fun h => { h with bPrevHash := (c.bh b).bPrevHash }
  let c₂ := c₁.store (c₁.bh b).bPrevHash fun h => { h with bNextHash := (c₁.bh b).bNextHash }
  some b :: tested (c.bh b).bNextHash ++ tested (c₁.bh b).bPrevHash ++
    -- the panic comes first
    if (c₂.bh b).bPrevFree = none ∨ (c₂.bh b).bNextFree = none then []
    else [(c₂.bh b).bPrevFree, (c₂.bh b).bNextFree]

def insertRefs (c : Cache n) (b : Fin n) : List (Option (Fin n)) :=
  let f := c.freeList
  let c₁ := c.store (some b) fun h => { h with bNextFree := some f }
  let c₂ := c₁.store (some b) fun h => { h with bPrevFree := (c₁.bh f).bPrevFree }
  let c₃ := c₂.store (c₂.bh f).bPrevFree fun h => { h with bNextFree := some b }
  let c₄ := c₃.store (some f) fun h => { h with bPrevFree := some b }
  let c₅ := c₄.store (some b) fun h => { h with bPrevHash := none, bNextHash := none }
  let c₆ := c₅.store (some b) fun h => { h with bNextHash := c₅.hashTable (c₅.bh b).bucket }
  [some b, some f, (c₂.bh f).bPrevFree] ++
    -- not tested
    if (c₅.bh b).bDev = 0 then [] else [(c₆.bh b).bNextHash]

def claimRefs (c : Cache n) (b : Fin n) (dev block : U32) : List (Option (Fin n)) :=
  some b :: (c.fresh b).removeRefs b ++
    match (c.fresh b).removeFromQueues b with
    | none => []
    | some c₂ => some b :: (c₂.rekey b dev block).insertRefs b

section refs

variable {c c₂ c' : Cache n} {b : Fin n} {dev block : U32}

theorem none_not_mem_tested (p : Option (Fin n)) : none ∉ tested p := by
  rw [tested]
  split
  · simp
  · simpa [eq_comm]

theorem none_not_mem_walkRefs (next : Fin n → Option (Fin n)) (hit : Fin n → Bool) (fuel : Nat)
    (p : Option (Fin n)) : none ∉ walkRefs next hit fuel p := by
  induction fuel generalizing p with
  | zero => simp [walkRefs]
  | succ fuel ih =>
    cases p with
    | none => simp [walkRefs]
    | some x =>
      rw [walkRefs, List.mem_cons]
      split
      · simp
      · simpa using ih (next x)

theorem none_not_mem_removeRefs (c : Cache n) (b : Fin n) : none ∉ c.removeRefs b := by
  simp only [removeRefs, List.cons_append, List.mem_cons, List.mem_append, reduceCtorEq, false_or,
    none_not_mem_tested]
  split
  · simp
  · rename_i hfree
    simpa [eq_comm] using hfree

theorem Detached.prevFree (h : Detached c b) : c.prevFree c.freeList ≠ none := by
  rcases h.ring with ⟨l, hr, -⟩ | ⟨hall, hself⟩
  · obtain ⟨p, _, _, _, hp, -⟩ := hr.neighbours (Cycle.mem_coe_iff.mpr List.mem_cons_self)
    rw [hp.2]
    simp
  · rw [hall c.freeList, hself]
    simp

/-- The chain of a bucket is empty when no other head with a device belongs there. -/
theorem Detached.hashTable_eq_none (h : Detached c b) (k : Fin NR_HASH) :
    c.hashTable k = none ↔ ∀ x, x ≠ b → (c.bh x).bDev ≠ 0 → (c.bh x).bucket ≠ k := by
  obtain ⟨chain, hchain⟩ := h.chains
  have hlinked := (hchain.linked k).toChain
  constructor
  · intro hnone x hx hdev hk
    have hmem := (hchain.mem k x).mpr ⟨by simpa using Ne.symm hx, hdev, hk⟩
    rw [hnone] at hlinked
    rw [hlinked.eq_nil] at hmem
    cases hmem
  · intro hout
    by_contra hne
    obtain ⟨x, hx⟩ := Option.ne_none_iff_exists'.mp hne
    rw [hx] at hlinked
    obtain ⟨l, hl⟩ := hlinked.exists_cons
    obtain ⟨hb, hdev, hk⟩ := (hchain.mem k x).mp (by rw [hl]; exact List.mem_cons_self)
    exact hout x (fun e => hb (by rw [e])) hdev hk

/-- What `insert_into_queues` follows, with what the fields hold by then. -/
theorem insertRefs_eq (c : Cache n) (b : Fin n) : c.insertRefs b =
    [some b, some c.freeList, c.prevFree c.freeList] ++
      if (c.bh b).bDev = 0 then [] else [c.hashTable (c.bh b).bucket] := by
  obtain ⟨c₁, h₁⟩ : ∃ c₁, c₁ = c.store (some b) fun h => { h with bNextFree := some c.freeList } :=
    ⟨_, rfl⟩
  obtain ⟨c₂, h₂⟩ : ∃ c₂, c₂ = c₁.store (some b) fun h =>
      { h with bPrevFree := (c₁.bh c.freeList).bPrevFree } := ⟨_, rfl⟩
  obtain ⟨c₅, h₅⟩ : ∃ c₅, c₅ = ((c₂.store (c₂.bh c.freeList).bPrevFree fun h =>
      { h with bNextFree := some b }).store (some c.freeList) fun h =>
      { h with bPrevFree := some b }).store (some b) fun h =>
      { h with bPrevHash := none, bNextHash := none } := ⟨_, rfl⟩
  have hrefs : c.insertRefs b = [some b, some c.freeList, (c₂.bh c.freeList).bPrevFree] ++
      if (c₅.bh b).bDev = 0 then []
      else [((c₅.store (some b) fun h =>
        { h with bNextHash := c₅.hashTable (c₅.bh b).bucket }).bh b).bNextHash] := by
    rw [h₅, h₂, h₁]
    rfl
  have hprev₁ : (c₁.bh c.freeList).bPrevFree = c.prevFree c.freeList := by
    rw [h₁, prevFree, store_bh]
    split <;> rfl
  have hprev : (c₂.bh c.freeList).bPrevFree = c.prevFree c.freeList := by
    rw [h₂, store_bh]
    split
    · exact hprev₁
    · exact hprev₁
  -- none of the stores assigns a key
  have hkey : ∀ {β : Type} {g : BufferHead n → β}, (∀ (h : BufferHead n) p q r s,
      g { h with bPrevFree := p, bNextFree := q, bPrevHash := r, bNextHash := s } = g h) →
      g (c₅.bh b) = g (c.bh b) := by
    intro β g hg
    rw [h₅, store_keeps (g := g) fun h => hg h _ _ _ _, store_keeps (g := g) fun h => hg h _ _ _ _,
      store_keeps (g := g) fun h => hg h _ _ _ _, h₂, store_keeps (g := g) fun h => hg h _ _ _ _,
      h₁, store_keeps (g := g) fun h => hg h _ _ _ _]
  have htable : c₅.hashTable = c.hashTable := by
    rw [h₅, h₂, h₁]
    rfl
  rw [hrefs, hprev, store_self, hkey (g := BufferHead.bDev) fun _ _ _ _ _ => rfl,
    hkey (g := BufferHead.bucket) fun _ _ _ _ _ => rfl, htable]

/-- A link of the last store is null when the chain is empty. -/
theorem Detached.null_iff (h : Detached c b) : none ∈ c.insertRefs b ↔
    (c.bh b).bDev ≠ 0 ∧
      ∀ x, x ≠ b → (c.bh x).bDev ≠ 0 → (c.bh x).bucket ≠ (c.bh b).bucket := by
  rw [insertRefs_eq, ← h.hashTable_eq_none]
  have hprev := h.prevFree
  split <;> simp_all [eq_comm]

/-- Some head other than `b` is on the chain of the block. -/
def ChainTaken (c : Cache n) (b : Fin n) (dev block : U32) : Prop :=
  ∃ x, x ≠ b ∧ (c.bh x).bDev ≠ 0 ∧
    (c.bh x).bucket = hashfn ((dev.setWidth 16).zeroExtend 32) block

theorem WellFormed.null_iff (h : WellFormed c) (b : Fin n) (dev block : U32) :
    none ∈ c.claimRefs b dev block ↔ dev.setWidth 16 ≠ 0#16 ∧ ¬ ChainTaken c b dev block := by
  obtain ⟨c₂, c', -, hsteps, -⟩ := h.claim_steps b dev block
  have hself : ((c₂.rekey b dev block).bh b).bDev = dev.setWidth 16 ∧
      ((c₂.rekey b dev block).bh b).bucket = hashfn ((dev.setWidth 16).zeroExtend 32) block := by
    rw [rekey, store_self]
    exact ⟨rfl, rfl⟩
  have hother : ∀ x, x ≠ b → ((c₂.rekey b dev block).bh x).bDev = (c.bh x).bDev ∧
      ((c₂.rekey b dev block).bh x).bucket = (c.bh x).bucket := by
    intro x hx
    have halike := hsteps.removed.alike x
    rw [fresh, store_other _ hx] at halike
    rw [rekey, store_other _ hx]
    exact ⟨halike.bDev, halike.bucket⟩
  have hinsert := hsteps.detached.null_iff
  rw [hself.1, hself.2] at hinsert
  rw [claimRefs, hsteps.remove]
  simp only [List.cons_append, List.mem_cons, List.mem_append, reduceCtorEq, false_or,
    none_not_mem_removeRefs, hinsert]
  refine and_congr_right fun _ => ⟨?_, fun hempty x hx hdev hk => ?_⟩
  · rintro hempty ⟨x, hx, hdev, hk⟩
    exact hempty x hx (by rw [(hother x hx).1]; exact hdev) ((hother x hx).2.trans hk)
  · rw [(hother x hx).1] at hdev
    exact hempty ⟨x, hx, hdev, (hother x hx).2.symm.trans hk⟩

end refs

end Cache
end Fs

namespace Io

open Kernel (U32)
open Fs (BufferHead Cache badness)
open Driver
open Lib

variable {n : Nat} {Task : Type} [DecidableEq Task] {mode : AddMode}

/-- The pointers to heads that a step from this place follows.  The next place of the scan is
followed as soon as it is known not to be the first. -/
def refs (m : Mem n) : Pc n → List (Option (Fin n))
  | .lookup w => m.cache.findRefs w.dev w.block ++
      Cache.tested (m.cache.findBuffer w.dev w.block).join
  | .scan _ tmp bh => some tmp :: Cache.tested bh ++
      if better m.cache tmp bh ∧ badness (m.cache.bh tmp) = 0 then []
      else if (m.cache.bh tmp).bNextFree = some m.cache.freeList then []
      else [(m.cache.bh tmp).bNextFree]
  | .claim w b => m.cache.findRefs w.dev w.block ++
      if m.cache.findBuffer w.dev w.block = some none then m.cache.claimRefs b w.dev w.block
      else []
  | .hashWait _ b | .victimWait _ b | .checkDirty _ b | .gotBlk _ b | .rwEntry _ _ b
  | .lockWait _ _ b _ | .fill _ _ b _ _ | .readWait _ b | .brelseWait _ b => [some b]
  | .idle | .noBuffer _ | .findSlot .. | .slotWait .. | .rwDone .. | .ret .. | .panicked => []

def FollowsNoNull (s : System n Task) : Act n Task → Prop
  | .step t => none ∉ refs s.mem (s.pc t)
  | _ => True

/-- A head that is given to a block of a device is not the first on its chain. -/
def NotFirst (s : System n Task) : Act n Task → Prop
  | .step t => ∀ w b, s.pc t = .claim w b → s.mem.cache.findBuffer w.dev w.block = some none →
      w.dev.setWidth 16 ≠ 0#16 → s.mem.cache.ChainTaken b w.dev w.block
  | _ => True

omit [DecidableEq Task] in
theorem Safe.followsNoNull_iff {s : System n Task} (h : Safe s) (a : Act n Task) :
    FollowsNoNull s a ↔ NotFirst s a := by
  cases a with
  | step t =>
    -- only a claim can be the first
    have hnot : (∀ w b, s.pc t ≠ .claim w b) → none ∉ refs s.mem (s.pc t) →
        (FollowsNoNull s (.step t) ↔ NotFirst s (.step t)) :=
      fun hne href => iff_of_true href fun w b hpc => absurd hpc (hne w b)
    cases hpc : s.pc t with
    | lookup w =>
      refine hnot (by simp [hpc]) ?_
      rw [hpc, refs, List.mem_append, not_or]
      exact ⟨Cache.none_not_mem_walkRefs _ _ _ _, Cache.none_not_mem_tested _⟩
    | scan w tmp bh =>
      refine hnot (by simp [hpc]) ?_
      obtain ⟨r, hring, hall⟩ := h.wellFormed.ring
      obtain ⟨_, x, -, -, -, hx⟩ := hring.neighbours (hall tmp)
      have hnext : (s.mem.cache.bh tmp).bNextFree = some x := hx.1
      rw [hpc, refs, hnext]
      simp only [List.cons_append, List.mem_cons, List.mem_append, reduceCtorEq, false_or,
        Cache.none_not_mem_tested]
      split_ifs <;> simp
    | claim w b =>
      have hfind : none ∉ s.mem.cache.findRefs w.dev w.block :=
        Cache.none_not_mem_walkRefs _ _ _ _
      have hclaim := h.wellFormed.null_iff b w.dev w.block
      simp only [FollowsNoNull, NotFirst, hpc, refs, List.mem_append, hfind, false_or]
      split_ifs with hmiss
      · rw [hclaim]
        constructor
        · rintro hno w' b' ⟨⟩ - hdev
          exact not_not.mp fun hc => hno ⟨hdev, hc⟩
        · rintro hno ⟨hdev, hc⟩
          exact hc (hno w b rfl hmiss hdev)
      · refine iff_of_true (by simp) ?_
        rintro w' b' ⟨⟩ hmiss'
        exact absurd hmiss' hmiss
    | _ => exact hnot (by simp [hpc]) (by simp [hpc, refs])
  | _ => exact Iff.rfl

/-- In every state that the system gets into a step follows no null pointer if and only if it
does not make a head the first of a chain, and so in every run of such steps none is followed. -/
theorem follows_no_null_iff [NeZero n] {s₀ s : System n Task} {as : List (Act n Task)}
    (h₀ : Booted s₀) (h : Run (System.Step mode) s₀ as s) :
    (∀ a, FollowsNoNull s a ↔ NotFirst s a) ∧
    (Run (Guarded FollowsNoNull (System.Step mode)) s₀ as s ↔
      Run (Guarded NotFirst (System.Step mode)) s₀ as s) := by
  have hiff : ∀ as s, Run (System.Step mode) s₀ as s →
      ∀ a, FollowsNoNull s a ↔ NotFirst s a :=
    fun as s hrun a => (safe_run h₀ hrun).followsNoNull_iff a
  exact ⟨hiff as s h,
    fun hrun => hrun.guarded_mono fun ms u a hu => (hiff ms u hu a).mp,
    fun hrun => hrun.guarded_mono fun ms u a hu => (hiff ms u hu a).mpr⟩

/-! ## The first block -/

namespace FirstBlock

/-- A task asks for a block after `buffer_init`, and finds a head for it. -/
def acts : List (Act 2 (Fin 1)) :=
  .call 0 (.want ⟨.getblk, 0x301, 5⟩) :: List.replicate 4 (.step 0)

def start : System 2 (Fin 1) := boot 0x200000 fun _ => 0

def claiming : System 2 (Fin 1) := (replay (System.next .asWritten) start acts).getD start

theorem run : Run (System.Step .asWritten) start acts claiming := run_replay (by decide +kernel)

/-- The chain of block 720 is that of block 5. -/
def again : List (Act 2 (Fin 1)) :=
  acts ++ List.replicate 3 (.step 0) ++ .call 0 (.want ⟨.getblk, 0x301, 720⟩) ::
    List.replicate 4 (.step 0)

def claimingAgain : System 2 (Fin 1) :=
  (replay (System.next .asWritten) start again).getD start

theorem run_again : Run (System.Step .asWritten) start again claimingAgain :=
  run_replay (by decide +kernel)

end FirstBlock

theorem follows_no_null_iff_firstBlock :
    FirstBlock.claimingAgain.mem.cache.ChainTaken 1 0x301 720 ∧
      FollowsNoNull FirstBlock.claimingAgain (.step 0) := by
  have hpc : FirstBlock.claimingAgain.pc 0 = .claim ⟨.getblk, 0x301, 720⟩ 1 := by
    decide +kernel
  have htaken : FirstBlock.claimingAgain.mem.cache.ChainTaken 1 0x301 720 :=
    ⟨0, by decide, by decide +kernel, by decide +kernel⟩
  refine ⟨htaken, ((follows_no_null_iff (booted_boot 0x200000 fun _ => 0)
    FirstBlock.run_again).1 (.step 0)).mpr fun w b hclaim => ?_⟩
  rw [hpc] at hclaim
  cases hclaim
  exact fun _ _ => htaken

/-- `getblk` writes through a null pointer. -/
theorem first_block_follows_null :
    Booted FirstBlock.start ∧
      Run (System.Step .asWritten) FirstBlock.start FirstBlock.acts FirstBlock.claiming ∧
      FirstBlock.claiming.running = some 0 ∧
      none ∈ refs FirstBlock.claiming.mem (FirstBlock.claiming.pc 0) :=
  ⟨booted_boot 0x200000 fun _ => 0, FirstBlock.run, by decide +kernel, by decide +kernel⟩

end Io
end CherryOS
