import CherryOS.Fs.CacheInv
import CherryOS.Lib.Record

/-!
# How the buffers lie in memory

`buffer_init` takes blocks from the end of its memory down and puts the head of each at the
start, one behind the other, until the next block would reach into the next head.  The loop
links each head to the places before and after it, which for the first and the last head is
wrong; the ends are linked after the loop.

The memory here is bytes, and a `buffer_head` lies in it as the compiler lays it out.
-/

namespace CherryOS
namespace Fs

open Kernel (U32)
open Lib Record

/-- The members of `struct buffer_head`. -/
inductive Member
  | bData | bBlocknr | bDev | bUptodate | bDirt | bCount | bLock | bWait
  | bPrevHash | bNextHash | bPrevFree | bNextFree
deriving DecidableEq, Repr

/-- Two bytes before `b_wait` are not used. -/
def Member.field : Member → Field
  | .bData => ⟨0, 4, by decide⟩
  | .bBlocknr => ⟨4, 4, by decide⟩
  | .bDev => ⟨8, 2, by decide⟩
  | .bUptodate => ⟨10, 1, by decide⟩
  | .bDirt => ⟨11, 1, by decide⟩
  | .bCount => ⟨12, 1, by decide⟩
  | .bLock => ⟨13, 1, by decide⟩
  | .bWait => ⟨16, 4, by decide⟩
  | .bPrevHash => ⟨20, 4, by decide⟩
  | .bNextHash => ⟨24, 4, by decide⟩
  | .bPrevFree => ⟨28, 4, by decide⟩
  | .bNextFree => ⟨32, 4, by decide⟩

/-- `sizeof(struct buffer_head)` -/
def headSize : Nat := 36

/-- `buf_start_addr` -/
def bufStart : U32 := 0x100000

/-- The variables of the loop.  `last` is what the source calls `end`. -/
structure InitLoop where
  heads : U32
  last : U32
  numberOfBuffers : Nat
  mem : Bytes32

structure BufferMem where
  mem : Bytes32
  numberOfBuffers : Nat
  freeList : U32
  hashTable : Fin NR_HASH → U32

/-- The stores of one turn. -/
def initHead (m : Bytes32) (heads last : U32) : Bytes32 :=
  let put (member : Member) (v : U32) (m : Bytes32) : Bytes32 := store m heads member.field v
  let m := put .bDev 0 m
  let m := put .bDirt 0 m
  let m := put .bCount 0 m
  let m := put .bLock 0 m
  let m := put .bUptodate 0 m
  let m := put .bWait 0 m
  let m := put .bPrevHash 0 m
  let m := put .bNextHash 0 m
  let m := put .bData last m
  let m := put .bPrevFree (heads - BitVec.ofNat 32 headSize) m
  put .bNextFree (heads + BitVec.ofNat 32 headSize) m

/-- The loop, for at most `fuel` turns. -/
def initLoop : Nat → InitLoop → Option InitLoop
  | 0, _ => none
  | fuel + 1, s =>
    let last := s.last - BitVec.ofNat 32 BLOCK_SIZE
    if last < s.heads + BitVec.ofNat 32 headSize then some { s with last := last }
    else
      initLoop fuel
        { heads := s.heads + BitVec.ofNat 32 headSize
          last := last
          numberOfBuffers := s.numberOfBuffers + 1
          mem := initHead s.mem s.heads last }

/-- What follows the loop. -/
def closeRing (s : InitLoop) : BufferMem :=
  let heads := s.heads - BitVec.ofNat 32 headSize
  let freeList := bufStart
  let m := store s.mem freeList Member.bPrevFree.field heads
  let m := store m heads Member.bNextFree.field freeList
  { mem := m, numberOfBuffers := s.numberOfBuffers, freeList := freeList, hashTable := fun _ => 0 }

def bufferInitMem (fuel : Nat) (bufferEnd : U32) (m : Bytes32) : Option BufferMem :=
  (initLoop fuel { heads := bufStart, last := bufferEnd, numberOfBuffers := 0, mem := m }).map
    closeRing

/-! ## One head -/

/-- The address of head `i`, and of block `i` when the memory ends at `bufferEnd`. -/
def headAddr (i : Nat) : U32 := bufStart + BitVec.ofNat 32 (headSize * i)

def blockAddr (bufferEnd : U32) (i : Nat) : U32 :=
  bufferEnd - BitVec.ofNat 32 (BLOCK_SIZE * (i + 1))

section head

variable {m : Bytes32} {a v : U32} {f g : Member}

theorem member_bounds (f : Member) : f.field.off + f.field.size ≤ headSize := by
  cases f <;> decide

/-- The order of the members is that of their bytes. -/
theorem member_apart {f g : Member} (h : f ≠ g) :
    f.field.off + f.field.size ≤ g.field.off ∨ g.field.off + g.field.size ≤ f.field.off := by
  revert h
  cases f <;> cases g <;> decide

/-- A store to a member of a head, seen from any member of it. -/
theorem load_store_member (ha : a.toNat + headSize ≤ 2 ^ 32) :
    load (store m a f.field v) a g.field = if g = f then f.field.fit v else load m a g.field := by
  have hf := member_bounds f
  have hg := member_bounds g
  by_cases h : g = f
  · subst h
    rw [if_pos rfl]
    exact load_store_self m a v g.field
  · rw [if_neg h]
    refine load_store_apart (by omega) (by omega) ?_
    have hapart := member_apart (Ne.symm h)
    unfold Apart
    omega

/-- Seen from another head. -/
theorem load_store_head {b : U32} (ha : a.toNat + headSize ≤ 2 ^ 32)
    (hb : b.toNat + headSize ≤ 2 ^ 32)
    (hab : a.toNat + headSize ≤ b.toNat ∨ b.toNat + headSize ≤ a.toNat) :
    load (store m a f.field v) b g.field = load m b g.field := by
  have hf := member_bounds f
  have hg := member_bounds g
  refine load_store_apart (by omega) (by omega) ?_
  unfold Apart
  omega

/-- What a turn stores in a head. -/
def initValue (heads last old : U32) : Member → U32
  | .bData => last
  | .bBlocknr => old
  | .bPrevFree => heads - BitVec.ofNat 32 headSize
  | .bNextFree => heads + BitVec.ofNat 32 headSize
  | _ => 0

theorem load_initHead {last : U32} (ha : a.toNat + headSize ≤ 2 ^ 32) :
    load (initHead m a last) a g.field =
      initValue a last (load m a Member.bBlocknr.field) g := by
  simp only [initHead, load_store_member ha]
  cases g with
  | bBlocknr => rfl
  | bData | bPrevFree | bNextFree => exact Field.fit_word rfl _
  | _ => exact Field.fit_zero _

theorem initHead_outside {last p : U32} (hp : headSize ≤ (p - a).toNat) :
    initHead m a last p = m p := by
  have hout : ∀ (m : Bytes32) (f : Member) (v : U32), store m a f.field v p = m p :=
    fun m f v => store_outside (member_bounds f) (by decide) hp
  simp only [initHead, hout]

end head

/-! ## The loop -/

/-- How many heads with their blocks fit in memory that ends at `bufferEnd`. -/
def capacity (bufferEnd : U32) : Nat :=
  (bufferEnd.toNat - bufStart.toNat) / (BLOCK_SIZE + headSize)

/-- There is room for one buffer, and no more memory than 16 MB. -/
structure Ends (bufferEnd : U32) : Prop where
  low : bufStart.toNat + BLOCK_SIZE + headSize ≤ bufferEnd.toNat
  high : bufferEnd.toNat ≤ 0x1000000

section addresses

variable {bufferEnd : U32} {i k : Nat}

theorem Ends.bounds (h : Ends bufferEnd) : 1 ≤ capacity bufferEnd ∧
    0x100000 + 1060 * capacity bufferEnd ≤ bufferEnd.toNat ∧
    bufferEnd.toNat < 0x100000 + 1060 * (capacity bufferEnd + 1) ∧
    bufferEnd.toNat ≤ 0x1000000 := by
  have hlow : 0x100000 + 1024 + 36 ≤ bufferEnd.toNat := h.low
  have hhigh := h.high
  have hcap : capacity bufferEnd = (bufferEnd.toNat - 0x100000) / 1060 := rfl
  omega

theorem headAddr_toNat (hi : i ≤ 0x10000) : (headAddr i).toNat = 0x100000 + 36 * i := by
  rw [headAddr, BitVec.toNat_add, BitVec.toNat_ofNat]
  show (0x100000 + 36 * i % 2 ^ 32) % 2 ^ 32 = _
  omega

theorem blockAddr_toNat (hi : 1024 * (i + 1) ≤ bufferEnd.toNat) :
    (blockAddr bufferEnd i).toNat = bufferEnd.toNat - 1024 * (i + 1) := by
  have hlt := bufferEnd.isLt
  rw [blockAddr, BitVec.toNat_sub, BitVec.toNat_ofNat]
  show (2 ^ 32 - 1024 * (i + 1) % 2 ^ 32 + bufferEnd.toNat) % 2 ^ 32 = _
  omega

theorem headAddr_succ (i : Nat) : headAddr i + BitVec.ofNat 32 headSize = headAddr (i + 1) := by
  rw [headAddr, headAddr, Nat.mul_add, BitVec.ofNat_add, Nat.mul_one]
  ring

theorem headAddr_pred (i : Nat) : headAddr (i + 1) - BitVec.ofNat 32 headSize = headAddr i := by
  rw [← headAddr_succ]
  exact BitVec.add_sub_cancel ..

theorem blockAddr_next (bufferEnd : U32) (k : Nat) :
    bufferEnd - BitVec.ofNat 32 (BLOCK_SIZE * k) - BitVec.ofNat 32 BLOCK_SIZE =
      blockAddr bufferEnd k := by
  rw [blockAddr, Nat.mul_add, BitVec.ofNat_add, Nat.mul_one]
  ring

/-- The next block would reach into the next head just when the memory is full. -/
theorem block_lt_head_iff (h : Ends bufferEnd) (hk : k ≤ capacity bufferEnd) :
    blockAddr bufferEnd k < headAddr k + BitVec.ofNat 32 headSize ↔ k = capacity bufferEnd := by
  obtain ⟨-, hfit, hfull, hhigh⟩ := h.bounds
  rw [headAddr_succ, BitVec.lt_def, headAddr_toNat (by omega), blockAddr_toNat (by omega)]
  omega

end addresses

/-- After `k` turns. -/
structure InitLoop.After (m₀ : Bytes32) (bufferEnd : U32) (k : Nat) (s : InitLoop) : Prop where
  heads : s.heads = headAddr k
  number : s.numberOfBuffers = k
  filled : ∀ i < k, ∀ f : Member, load s.mem (headAddr i) f.field =
    initValue (headAddr i) (blockAddr bufferEnd i) (load m₀ (headAddr i) Member.bBlocknr.field) f
  rest : ∀ p, headSize * k ≤ (p - bufStart).toNat → s.mem p = m₀ p

section loop

variable {bufferEnd : U32} {m₀ : Bytes32} {s : InitLoop} {k : Nat}

/-- The bytes of a place that no turn has reached are as they were. -/
theorem InitLoop.After.load_rest (h : s.After m₀ bufferEnd k) (hk : k ≤ 0x10000) (f : Member) :
    load s.mem (headAddr k) f.field = load m₀ (headAddr k) f.field := by
  refine load_congr fun j hj => h.rest _ ?_
  have hf := member_bounds f
  have hd : headAddr k + BitVec.ofNat 32 f.field.off + BitVec.ofNat 32 j - bufStart =
      BitVec.ofNat 32 (headSize * k + (f.field.off + j)) := by
    rw [headAddr, BitVec.ofNat_add, BitVec.ofNat_add]
    ring
  have h36 : headSize = 36 := rfl
  rw [hd, BitVec.toNat_ofNat, h36]
  omega

theorem InitLoop.After.turn (h : s.After m₀ bufferEnd k) (hend : Ends bufferEnd)
    (hk : k < capacity bufferEnd) :
    InitLoop.After m₀ bufferEnd (k + 1)
      { heads := s.heads + BitVec.ofNat 32 headSize
        last := blockAddr bufferEnd k
        numberOfBuffers := s.numberOfBuffers + 1
        mem := initHead s.mem s.heads (blockAddr bufferEnd k) } := by
  obtain ⟨-, hfit, hfull, hhigh⟩ := hend.bounds
  have hbound : k ≤ 0x10000 := by omega
  have haddr := headAddr_toNat hbound
  have hroom : (headAddr k).toNat + headSize ≤ 2 ^ 32 := by
    rw [haddr]
    show _ + 36 ≤ _
    omega
  refine ⟨by rw [h.heads, headAddr_succ], by rw [h.number], fun i hi f => ?_, fun p hp => ?_⟩
  · rw [h.heads]
    by_cases hik : i = k
    · rw [hik, load_initHead hroom, h.load_rest hbound]
    · rw [← h.filled i (by omega)]
      refine load_congr fun j hj => initHead_outside ?_
      have hf := member_bounds f
      have hd : headAddr i + BitVec.ofNat 32 f.field.off + BitVec.ofNat 32 j - headAddr k =
          BitVec.ofNat 32 (headSize * i + (f.field.off + j)) - BitVec.ofNat 32 (headSize * k) := by
        rw [headAddr, headAddr, BitVec.ofNat_add, BitVec.ofNat_add]
        ring
      have h36 : headSize = 36 := rfl
      rw [hd, BitVec.toNat_sub, BitVec.toNat_ofNat, BitVec.toNat_ofNat, h36,
        Nat.mod_eq_of_lt (a := 36 * i + (f.field.off + j)) (by omega),
        Nat.mod_eq_of_lt (a := 36 * k) (by omega), Nat.mod_eq_of_lt (by omega)]
      omega
  · rw [← h.rest p]
    · dsimp only
      rw [h.heads]
      refine initHead_outside ?_
      have hd : p - headAddr k = p - bufStart - BitVec.ofNat 32 (headSize * k) := by
        rw [headAddr]
        ring
      have h36 : headSize = 36 := rfl
      have hlt := (p - bufStart).isLt
      rw [h36] at hp
      rw [hd, BitVec.toNat_sub, BitVec.toNat_ofNat, h36]
      omega
    · exact (Nat.mul_le_mul_left headSize (Nat.le_succ k)).trans hp

theorem initLoop_step (fuel : Nat) (h : s.After m₀ bufferEnd k)
    (hlast : s.last = bufferEnd - BitVec.ofNat 32 (BLOCK_SIZE * k)) (hend : Ends bufferEnd)
    (hk : k ≤ capacity bufferEnd) :
    initLoop (fuel + 1) s =
      if k = capacity bufferEnd then some { s with last := blockAddr bufferEnd k }
      else initLoop fuel
        { heads := s.heads + BitVec.ofNat 32 headSize
          last := blockAddr bufferEnd k
          numberOfBuffers := s.numberOfBuffers + 1
          mem := initHead s.mem s.heads (blockAddr bufferEnd k) } := by
  rw [initLoop, hlast, blockAddr_next, h.heads]
  simp only [block_lt_head_iff hend hk]

/-- The loop ends when the memory is full. -/
theorem initLoop_after (hend : Ends bufferEnd) (h : s.After m₀ bufferEnd k)
    (hlast : s.last = bufferEnd - BitVec.ofNat 32 (BLOCK_SIZE * k))
    (hk : k ≤ capacity bufferEnd) :
    ∃ s' : InitLoop, (∀ fuel, capacity bufferEnd - k < fuel → initLoop fuel s = some s') ∧
      s'.After m₀ bufferEnd (capacity bufferEnd) := by
  induction hd : capacity bufferEnd - k generalizing k s with
  | zero =>
    have hkc : k = capacity bufferEnd := by omega
    refine ⟨{ s with last := blockAddr bufferEnd k }, fun fuel hfuel => ?_, ?_⟩
    · obtain ⟨fuel, rfl⟩ := Nat.exists_eq_succ_of_ne_zero (Nat.ne_of_gt hfuel)
      rw [initLoop_step fuel h hlast hend hk, if_pos hkc]
    · exact hkc ▸ ⟨h.heads, h.number, h.filled, h.rest⟩
  | succ d ih =>
    have hkc : k < capacity bufferEnd := by omega
    obtain ⟨s', hs', hafter⟩ := ih (h.turn hend hkc) rfl (by omega) (by omega)
    refine ⟨s', fun fuel hfuel => ?_, hafter⟩
    obtain ⟨fuel, rfl⟩ := Nat.exists_eq_succ_of_ne_zero (Nat.ne_of_gt (Nat.zero_lt_of_lt hfuel))
    rw [initLoop_step fuel h hlast hend hk, if_neg (Nat.ne_of_lt hkc)]
    exact hs' fuel (by omega)

end loop

/-! ## The cache that lies there -/

/-- A pointer to a head. -/
def headPtr {n : Nat} (o : Option (Fin n)) : U32 :=
  match o with
  | none => 0
  | some i => headAddr i

/-- The members of a head as words.  Nobody waits for it. -/
def BufferHead.value {n : Nat} (h : BufferHead n) : Member → U32
  | .bData => h.bData
  | .bBlocknr => h.bBlocknr
  | .bDev => h.bDev.zeroExtend 32
  | .bUptodate => h.bUptodate.zeroExtend 32
  | .bDirt => h.bDirt.zeroExtend 32
  | .bCount => h.bCount.zeroExtend 32
  | .bLock => h.bLock.zeroExtend 32
  | .bWait => 0
  | .bPrevHash => headPtr h.bPrevHash
  | .bNextHash => headPtr h.bNextHash
  | .bPrevFree => headPtr h.bPrevFree
  | .bNextFree => headPtr h.bNextFree

/-- The bytes are those of the cache. -/
structure BufferMem.Represents {n : Nat} (s : BufferMem) (c : Cache n) : Prop where
  number : s.numberOfBuffers = n
  freeList : s.freeList = headAddr c.freeList
  hashTable : ∀ k, s.hashTable k = headPtr (c.hashTable k)
  head : ∀ (i : Fin n) (f : Member), load s.mem (headAddr i) f.field = (c.bh i).value f

section represents

variable {bufferEnd : U32} {m₀ m : Bytes32} {n i j k : Nat} {v : U32} {f g : Member}

/-- A store to a head, seen from any head. -/
theorem load_store_heads (hi : i < 0x10000) (hj : j < 0x10000) :
    load (store m (headAddr j) f.field v) (headAddr i) g.field =
      if i = j ∧ g = f then f.field.fit v else load m (headAddr i) g.field := by
  have hia := headAddr_toNat (Nat.le_of_lt hi)
  have hja := headAddr_toNat (Nat.le_of_lt hj)
  have h36 : headSize = 36 := rfl
  by_cases hij : i = j
  · subst hij
    rw [load_store_member (by omega)]
    simp only [true_and]
  · rw [load_store_head (by omega) (by omega) (by omega), if_neg fun hc => hij hc.1]

/-- The place before a head, and the place after it, on a ring. -/
theorem val_sub_one (i : Fin (k + 1)) : (i - 1).val = if i.val = 0 then k else i.val - 1 := by
  by_cases hi : i = 0
  · rw [hi, zero_sub, Fin.coe_neg_one]
    rfl
  · have hval : i.val ≠ 0 := fun hc => hi (Fin.ext hc)
    rw [Fin.val_sub_one_of_ne_zero hi, if_neg hval]

theorem val_add_one (i : Fin (k + 1)) : (i + 1).val = if i.val = k then 0 else i.val + 1 := by
  rw [Fin.val_add_one]
  simp only [Fin.ext_iff, Fin.val_last]

/-- The two stores after the loop set right the two links that it got wrong. -/
theorem closeRing_represents [NeZero n] {t : InitLoop} (h : t.After m₀ bufferEnd n)
    (hn : n ≤ 0x10000) :
    (closeRing t).Represents (Cache.bufferInit bufferEnd
      fun i : Fin n => load m₀ (headAddr i) Member.bBlocknr.field) := by
  obtain ⟨k, rfl⟩ := Nat.exists_eq_succ_of_ne_zero (NeZero.ne n)
  have hlast : t.heads - BitVec.ofNat 32 headSize = headAddr k := by
    rw [h.heads, headAddr_pred]
  refine ⟨h.number, rfl, fun _ => rfl, fun i f => ?_⟩
  have hi : i.val < k + 1 := i.isLt
  rw [closeRing]
  dsimp only
  rw [hlast, show bufStart = headAddr 0 from rfl, load_store_heads (by omega) (by omega),
    load_store_heads (by omega) (by omega), h.filled i i.isLt f]
  cases f with
  | bPrevFree =>
    show (if i.val = k ∧ Member.bPrevFree = .bNextFree then _ else _) =
      headAddr (i - 1 : Fin (k + 1)).val
    rw [val_sub_one, if_neg (by simp)]
    by_cases h0 : i.val = 0
    · rw [if_pos ⟨h0, rfl⟩, if_pos h0]
      exact Field.fit_word rfl _
    · have hpred := headAddr_pred (i.val - 1)
      rw [Nat.sub_add_cancel (Nat.pos_of_ne_zero h0)] at hpred
      rw [if_neg fun hc => h0 hc.1, if_neg h0]
      exact hpred
  | bNextFree =>
    show _ = headAddr (i + 1 : Fin (k + 1)).val
    rw [val_add_one]
    by_cases hk : i.val = k
    · rw [if_pos ⟨hk, rfl⟩, if_pos hk]
      exact Field.fit_word rfl _
    · rw [if_neg fun hc => hk hc.1, if_neg (by simp), if_neg hk]
      exact headAddr_succ i
  | _ =>
    rw [if_neg (by simp), if_neg (by simp)]
    rfl

end represents

/-- The heads that `buffer_init` makes are the cache that the rest of the kernel starts with. -/
theorem bufferInitMem_represents {bufferEnd : U32} (hend : Ends bufferEnd)
    [NeZero (capacity bufferEnd)] (m : Bytes32) :
    ∃ s : BufferMem,
      (∀ fuel, capacity bufferEnd < fuel → bufferInitMem fuel bufferEnd m = some s) ∧
      s.Represents (Cache.bufferInit bufferEnd
        fun i : Fin (capacity bufferEnd) => load m (headAddr i) Member.bBlocknr.field) := by
  obtain ⟨-, hfit, -, hhigh⟩ := hend.bounds
  have hstart : InitLoop.After m bufferEnd 0
      { heads := bufStart, last := bufferEnd, numberOfBuffers := 0, mem := m } :=
    ⟨rfl, rfl, fun i hi => absurd hi (Nat.not_lt_zero i), fun _ _ => rfl⟩
  obtain ⟨t, hloop, hafter⟩ :=
    initLoop_after hend hstart (BitVec.sub_zero bufferEnd).symm (Nat.zero_le _)
  refine ⟨closeRing t, fun fuel hfuel => ?_, closeRing_represents hafter (by omega)⟩
  rw [bufferInitMem, hloop fuel hfuel]
  rfl

/-! ## What the cache is told -/

/-- A pointer member of the head at an address. -/
def BufferMem.link (s : BufferMem) (f : Member) (a : U32) : Option U32 :=
  if load s.mem a f.field = 0 then none else some (load s.mem a f.field)

/-- Block `i` starts at `b_data` of head `i`. -/
def BufferMem.block (s : BufferMem) (i : Nat) : Nat :=
  (load s.mem (headAddr i) Member.bData.field).toNat

/-- The memory is cut into as many buffers as it has room for, none of which overlaps another,
and the heads are one ring. -/
structure BufferMem.Cut (s : BufferMem) (bufferEnd : U32) : Prop where
  fits : s.numberOfBuffers * (BLOCK_SIZE + headSize) ≤ bufferEnd.toNat - bufStart.toNat
  most : ∀ k, k * (BLOCK_SIZE + headSize) ≤ bufferEnd.toNat - bufStart.toNat →
    k ≤ s.numberOfBuffers
  heads : ∀ i < s.numberOfBuffers, bufStart.toNat ≤ (headAddr i).toNat ∧
    (headAddr i).toNat + headSize ≤ bufStart.toNat + s.numberOfBuffers * headSize
  blocks : ∀ i < s.numberOfBuffers, bufStart.toNat ≤ s.block i ∧
    s.block i + BLOCK_SIZE ≤ bufferEnd.toNat
  disjoint : ∀ i j, i < s.numberOfBuffers → j < s.numberOfBuffers → i ≠ j →
    s.block i + BLOCK_SIZE ≤ s.block j ∨ s.block j + BLOCK_SIZE ≤ s.block i
  apart : ∀ i j, i < s.numberOfBuffers → j < s.numberOfBuffers →
    s.block i + BLOCK_SIZE ≤ (headAddr j).toNat ∨ (headAddr j).toNat + headSize ≤ s.block i
  ring : Ring (s.link .bNextFree) (s.link .bPrevFree)
    ↑((List.range s.numberOfBuffers).map headAddr)
  entry : s.freeList = headAddr 0

theorem headAddr_injective {n : Nat} (hn : n ≤ 0x10000) :
    Function.Injective fun i : Fin n => headAddr i := by
  intro i j hij
  have hnat := congrArg BitVec.toNat hij
  dsimp only at hnat
  rw [headAddr_toNat (by omega), headAddr_toNat (by omega)] at hnat
  exact Fin.ext (by omega)

theorem headAddr_ne_zero {i : Nat} (hi : i ≤ 0x10000) : headAddr i ≠ 0 := by
  intro hc
  have hnat := congrArg BitVec.toNat hc
  rw [headAddr_toNat hi] at hnat
  change _ = 0 at hnat
  omega

/-- A link of the cache is a link in the bytes. -/
theorem BufferMem.Represents.link {n : Nat} {s : BufferMem} {c : Cache n} (h : s.Represents c)
    (hn : n ≤ 0x10000) {f : Member} {x y : Fin n} (hf : (c.bh x).value f = headAddr y) :
    s.link f (headAddr x) = some (headAddr y) := by
  rw [BufferMem.link, h.head, hf, if_neg (headAddr_ne_zero (by omega))]

theorem BufferMem.Represents.ring {n : Nat} {s : BufferMem} {c : Cache n} (h : s.Represents c)
    (hn : n ≤ 0x10000) {r : Cycle (Fin n)} (hr : Ring c.nextFree c.prevFree r) :
    Ring (s.link .bNextFree) (s.link .bPrevFree) (r.map fun i : Fin n => headAddr i) := by
  refine hr.map (headAddr_injective hn) (fun x y hxy => h.link hn ?_) fun x y hxy => h.link hn ?_
  · show headPtr (c.nextFree x) = _
    rw [hxy]
    rfl
  · show headPtr (c.prevFree x) = _
    rw [hxy]
    rfl

/-- `buffer_init` ends, and cuts the memory into as many buffers as it has room for. -/
theorem bufferInitMem_cut (bufferEnd : U32) (m : Bytes32)
    (hlow : bufStart.toNat + BLOCK_SIZE + headSize ≤ bufferEnd.toNat)
    (hhigh : bufferEnd.toNat ≤ 0x1000000) :
    ∃ s : BufferMem, s.Cut bufferEnd ∧
      ∀ fuel, s.numberOfBuffers < fuel → bufferInitMem fuel bufferEnd m = some s := by
  have hend : Ends bufferEnd := ⟨hlow, hhigh⟩
  obtain ⟨hpos, hfit, hfull, -⟩ := hend.bounds
  have hne : NeZero (capacity bufferEnd) := ⟨by omega⟩
  obtain ⟨s, hs, hrep⟩ := bufferInitMem_represents hend m
  have hblock : ∀ i < capacity bufferEnd, s.block i = bufferEnd.toNat - 1024 * (i + 1) := by
    intro i hi
    rw [BufferMem.block, hrep.head ⟨i, hi⟩ .bData, ← blockAddr_toNat (by omega)]
    rfl
  have hring := hrep.ring (by omega) (Cache.bufferInit_ring bufferEnd _)
  rw [Cycle.map_coe] at hring
  have hstart : bufStart.toNat = 0x100000 := rfl
  have h36 : headSize = 36 := rfl
  have h1024 : BLOCK_SIZE = 1024 := rfl
  have hnum := hrep.number
  refine ⟨s, ⟨?_, fun k hk => ?_, fun i hi => ?_, fun i hi => ?_, fun i j hi hj hij => ?_,
    fun i j hi hj => ?_, ?_, hrep.freeList⟩, hnum ▸ hs⟩
  · rw [hnum, h1024, h36, hstart]
    omega
  · rw [h1024, h36, hstart] at hk
    omega
  · rw [headAddr_toNat (by omega), h36]
    omega
  · rw [hblock i (by omega)]
    omega
  · rw [hblock i (by omega), hblock j (by omega)]
    omega
  · rw [hblock i (by omega), headAddr_toNat (by omega)]
    omega
  · rw [hnum, ← List.map_coe_finRange_eq_range, List.map_map]
    exact hring

/-- The buffer memory of a machine with 16 MB, which ends at 4 MB. -/
theorem bufferInitMem_cut_4MB :
    ∃ s : BufferMem, s.numberOfBuffers = 2967 ∧ s.Cut 0x400000 ∧
      bufferInitMem 2968 0x400000 (fun _ => 0xFF) = some s := by
  obtain ⟨s, hcut, hs⟩ := bufferInitMem_cut 0x400000 (fun _ => 0xFF) (by decide) (by decide)
  have hle : s.numberOfBuffers * 1060 ≤ 0x300000 := hcut.fits
  have hge : 2967 ≤ s.numberOfBuffers := hcut.most 2967 (by decide)
  have hnum : s.numberOfBuffers = 2967 := by omega
  exact ⟨s, hnum, hcut, hs 2968 (by omega)⟩

end Fs
end CherryOS
