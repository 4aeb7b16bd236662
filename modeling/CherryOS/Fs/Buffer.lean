import Mathlib
import CherryOS.Kernel.Task
import CherryOS.Lib.Chain

/-!
# The buffer cache

`n` buffer heads lie in an array, and a pointer to one is its index.  Every head is on
the free list, a ring that the pointer `free_list` enters, and a head with a device is
also on the chain that its device and block number hash to.

A task's arguments are 32-bit words.  A head keeps the device in 16 bits, so a look-up
compares it widened.  The wait queues of the heads are not here: the tasks of `Io.Tasks`
may come out of `sleep_on` at any time.
-/

namespace CherryOS
namespace Fs

open Kernel (U32)
open Lib

def NR_HASH : Nat := 307

instance : NeZero NR_HASH := ⟨by decide⟩

def BLOCK_SIZE : Nat := 1024

structure BufferHead (n : Nat) where
  bData : U32
  bBlocknr : U32
  bDev : BitVec 16
  bUptodate : BitVec 8
  bDirt : BitVec 8
  bCount : BitVec 8
  bLock : BitVec 8
  bPrevHash : Option (Fin n)
  bNextHash : Option (Fin n)
  bPrevFree : Option (Fin n)
  bNextFree : Option (Fin n)
deriving DecidableEq, Repr

structure Cache (n : Nat) where
  bh : Fin n → BufferHead n
  freeList : Fin n
  hashTable : Fin NR_HASH → Option (Fin n)

/-- `_hashfn(dev, block)`. -/
def hashfn (dev block : U32) : Fin NR_HASH := Fin.ofNat NR_HASH (dev ^^^ block).toNat

/-- `BADNESS(bh)`. -/
def badness {n : Nat} (h : BufferHead n) : Nat := h.bDirt.toNat * 2 + h.bLock.toNat

namespace BufferHead

variable {n : Nat}

/-- The device and the block as a look-up compares them. -/
def key (h : BufferHead n) : U32 × U32 := (h.bDev.zeroExtend 32, h.bBlocknr)

/-- The chain a head with a device is on. -/
def bucket (h : BufferHead n) : Fin NR_HASH := hashfn (h.bDev.zeroExtend 32) h.bBlocknr

end BufferHead

namespace Cache

variable {n : Nat}

/-- A store through a pointer.  Through a null pointer it touches no head. -/
def store (c : Cache n) (p : Option (Fin n)) (f : BufferHead n → BufferHead n) : Cache n :=
  { c with bh := fun x => if p = some x then f (c.bh x) else c.bh x }

theorem store_bh (c : Cache n) (p : Option (Fin n)) (f : BufferHead n → BufferHead n)
    (x : Fin n) : (c.store p f).bh x = if p = some x then f (c.bh x) else c.bh x := rfl

@[simp] theorem store_freeList (c : Cache n) (p : Option (Fin n))
    (f : BufferHead n → BufferHead n) : (c.store p f).freeList = c.freeList := rfl

@[simp] theorem store_hashTable (c : Cache n) (p : Option (Fin n))
    (f : BufferHead n → BufferHead n) : (c.store p f).hashTable = c.hashTable := rfl

def findBuffer (c : Cache n) (dev block : U32) : Option (Option (Fin n)) :=
  -- a chain has no more nodes than there are heads
  search (fun x => (c.bh x).bNextHash)
    (fun x => decide ((c.bh x).bDev.zeroExtend 32 = dev ∧ (c.bh x).bBlocknr = block)) n
    (c.hashTable (hashfn dev block))

/-- `none` is the panic on a corrupted free list. -/
def removeFromQueues (c : Cache n) (b : Fin n) : Option (Cache n) :=
  let c₁ := c.store (c.bh b).bNextHash fun h => { h with bPrevHash := (c.bh b).bPrevHash }
  let c₂ := c₁.store (c₁.bh b).bPrevHash fun h => { h with bNextHash := (c₁.bh b).bNextHash }
  let k := (c₂.bh b).bucket
  let c₃ : Cache n :=
    if c₂.hashTable k = some b then
      { c₂ with hashTable := Function.update c₂.hashTable k (c₂.bh b).bNextHash }
    else c₂
  match (c₃.bh b).bPrevFree, (c₃.bh b).bNextFree with
  | some p, some q =>
    let c₄ := c₃.store (some p) fun h => { h with bNextFree := some q }
    let c₅ := c₄.store (some q) fun h => { h with bPrevFree := some p }
    some (if c₅.freeList = b then { c₅ with freeList := q } else c₅)
  | _, _ => none

def insertIntoQueues (c : Cache n) (b : Fin n) : Cache n :=
  let f := c.freeList
  let c₁ := c.store (some b) fun h => { h with bNextFree := some f }
  let c₂ := c₁.store (some b) fun h => { h with bPrevFree := (c₁.bh f).bPrevFree }
  let c₃ := c₂.store (c₂.bh f).bPrevFree fun h => { h with bNextFree := some b }
  let c₄ := c₃.store (some f) fun h => { h with bPrevFree := some b }
  let c₅ := c₄.store (some b) fun h => { h with bPrevHash := none, bNextHash := none }
  if (c₅.bh b).bDev = 0 then c₅
  else
    let k := (c₅.bh b).bucket
    let c₆ := c₅.store (some b) fun h => { h with bNextHash := c₅.hashTable k }
    let c₇ : Cache n := { c₆ with hashTable := Function.update c₆.hashTable k (some b) }
    c₇.store (c₇.bh b).bNextHash fun h => { h with bPrevHash := some b }

/-- The end of `getblk`, with interrupts off: the head `b` becomes the buffer of the
block. -/
def claim (c : Cache n) (b : Fin n) (dev block : U32) : Option (Cache n) :=
  let c₁ := c.store (some b) fun h => { h with bCount := 1, bDirt := 0, bUptodate := 0 }
  (c₁.removeFromQueues b).map fun c₂ =>
    (c₂.store (some b) fun h =>
      { h with bDev := dev.setWidth 16, bBlocknr := block }).insertIntoQueues b

/-- What `buffer_init` leaves when the blocks it cuts from `bufferEnd` down make room for
`n` heads.  The arithmetic of `Fin n` wraps: the two links that its loop gets wrong are
the ones set right after it.  The block numbers are what the memory held. -/
def bufferInit [NeZero n] (bufferEnd : U32) (blocknr : Fin n → U32) : Cache n where
  bh i :=
    { bData := bufferEnd - .ofNat 32 (BLOCK_SIZE * (i.val + 1)),
      bBlocknr := blocknr i, bDev := 0, bUptodate := 0, bDirt := 0, bCount := 0, bLock := 0,
      bPrevHash := none, bNextHash := none,
      bPrevFree := some (i - 1), bNextFree := some (i + 1) }
  freeList := 0
  hashTable _ := none

end Cache

end Fs
end CherryOS
