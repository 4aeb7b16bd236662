import CherryOS.Driver.BlkReq
import CherryOS.Fs.CacheInv
import CherryOS.Lib.Run

/-!
# Tasks that use the cache and the disk

Tasks call `get_hash_table`, `getblk`, `bread`, `brelse` and `ll_rw_block`.  The kernel is
not preempted: a task runs until it sleeps or its call is over, and another one runs then.
A sleeper may be resumed at any time, whether or not anybody woke it, so the model needs
no wait queues.  A disk interrupt completes the request at the head of the queue and can
occur between any two steps.

`exec` is one step of a task, from a place of its call to the next.  A step ends where the
source can sleep and where an interrupt could change what it reads next.  What it does
with interrupts off is one step.
-/

namespace CherryOS
namespace Io

open Kernel (U32)
open Fs (BufferHead Cache badness)
open Driver
open Lib

/-- Who looks for a block: the call the task is in. -/
inductive Kind
  | getHashTable
  | getblk
  | bread
deriving DecidableEq, Repr

structure Want where
  kind : Kind
  dev : U32
  block : U32
deriving DecidableEq, Repr

def Want.key (w : Want) : U32 × U32 := (w.dev, w.block)

/-- Where a task is.  In `rwEntry` to `rwDone` it is in `ll_rw_block`, called by `bread` for
some block or else by itself, and likewise in `brelseWait`. -/
inductive Pc (n : Nat)
  | idle
  | lookup (w : Want)
  | hashWait (w : Want) (b : Fin n)
  | scan (w : Want) (tmp : Fin n) (bh : Option (Fin n))
  | noBuffer (w : Want)
  /-- Both waits for the chosen head: the code after them is the same. -/
  | victimWait (w : Want) (b : Fin n)
  | checkDirty (w : Want) (b : Fin n)
  | claim (w : Want) (b : Fin n)
  | gotBlk (w : Want) (b : Fin n)
  | rwEntry (caller : Option Want) (rw : U32) (b : Fin n)
  | lockWait (caller : Option Want) (rw : U32) (b : Fin n) (major : Major)
  /-- Slots `left - 1` down to 0 are still to be looked at. -/
  | findSlot (caller : Option Want) (rw : U32) (b : Fin n) (major : Major) (left : Nat)
  | slotWait (caller : Option Want) (rw : U32) (b : Fin n) (major : Major)
  | fill (caller : Option Want) (rw : U32) (b : Fin n) (major : Major) (req : Slot)
  | rwDone (caller : Option Want) (b : Fin n)
  | readWait (w : Want) (b : Fin n)
  | brelseWait (caller : Option Want) (b : Fin n)
  | ret (w : Want) (bh : Option (Fin n))
  | panicked
deriving DecidableEq, Repr

/-- What the tasks share, and the history the properties speak of: the references given to
callers and not given back, the last completion for each key, and the slots in the order
they were queued and retired. -/
structure Mem (n : Nat) where
  cache : Cache n
  dev : BlkDev n
  handed : Fin n → Nat
  last : U32 × U32 → Option Bool
  added : Major → List Slot
  retired : Major → List Slot

/-- After a step the task goes on, or the next one may run. -/
inductive Next (n : Nat)
  | go (p : Pc n)
  | yield (p : Pc n)
deriving DecidableEq, Repr

def Next.pc {n : Nat} : Next n → Pc n
  | .go p => p
  | .yield p => p

namespace Mem

variable {n : Nat}

def store (m : Mem n) (b : Fin n) (f : BufferHead n → BufferHead n) : Mem n :=
  { m with cache := m.cache.store (some b) f }

def hold (m : Mem n) (b : Fin n) : Mem n := m.store b fun h => { h with bCount := h.bCount + 1 }

def unhold (m : Mem n) (b : Fin n) : Mem n :=
  m.store b fun h => { h with bCount := h.bCount - 1 }

/-- The caller gets the reference that the call holds. -/
def handOut (m : Mem n) (b : Fin n) : Mem n :=
  { m with handed := Function.update m.handed b (m.handed b + 1) }

def handBack (m : Mem n) (b : Fin n) : Mem n :=
  { m with handed := Function.update m.handed b (m.handed b - 1) }

/-- `make_request` from the slot it found on, with `add_request`. -/
def request (mode : AddMode) (m : Mem n) (rw : U32) (b : Fin n) (major : Major) (req : Slot) :
    Option (Mem n) :=
  ((m.dev.fill req rw b (m.cache.bh b)).addRequest mode major req).map fun d =>
    { m.store b fun h => { h with bDirt := 0 } with
      dev := d, added := Function.update m.added major (m.added major ++ [req]) }

/-- The disk interrupts.  `do_hd_request` has let no request of another device kind
through, so none of those completes. -/
def complete (m : Mem n) (ok : Bool) : Option (Mem n) :=
  match m.dev.reqQ BLK_DEV_NUM_HD with
  | none => none
  | some req =>
    if MAJOR (m.dev.request req).dev ≠ .ofNat 32 BLK_DEV_NUM_HD.val then none
    else (m.dev.endRequest m.cache ok).map fun (d, c) =>
      { m with
        dev := d, cache := c
        last := match (m.dev.request req).bh with
          | some b => Function.update m.last (m.cache.bh b).key (some ok)
          | none => m.last
        retired := Function.update m.retired BLK_DEV_NUM_HD (m.retired BLK_DEV_NUM_HD ++ [req]) }

end Mem

variable {n : Nat}

/-- `tmp` becomes the candidate of the scan. -/
def better (c : Cache n) (tmp : Fin n) (bh : Option (Fin n)) : Bool :=
  (c.bh tmp).bCount = 0 ∧ ∀ b, bh = some b → badness (c.bh tmp) < badness (c.bh b)

/-- The scan is over. -/
def chosen (w : Want) : Option (Fin n) → Next n
  | none => .yield (.noBuffer w)
  | some b => .go (.victimWait w b)

/-- `wait_on_buffer`, and what follows it. -/
def afterWait (m : Mem n) (b : Fin n) (p : Pc n) (k : Option (Mem n × Next n)) :
    Option (Mem n × Next n) :=
  if (m.cache.bh b).bLock ≠ 0 then some (m, .yield p) else k

/-- A call that returns `b` gives its reference away. -/
def returns (m : Mem n) (w : Want) (b : Fin n) : Mem n × Next n :=
  (m.handOut b, .go (.ret w (some b)))

def exec (mode : AddMode) (m : Mem n) : Pc n → Option (Mem n × Next n)
  | .idle => none
  | .panicked => none
  -- get_hash_table
  | .lookup w =>
    (m.cache.findBuffer w.dev w.block).map fun
      | none =>
        if w.kind = .getHashTable then (m, .go (.ret w none))
        else (m, .go (.scan w m.cache.freeList none))
      | some b => (m.hold b, .go (.hashWait w b))
  | .hashWait w b =>
    afterWait m b (.hashWait w b) <|
      if (m.cache.bh b).key = w.key then
        if w.kind = .getHashTable then some (returns m w b) else some (m, .go (.gotBlk w b))
      else some (m.unhold b, .go (.lookup w))
  -- getblk
  | .scan w tmp bh =>
    let bh' := if better m.cache tmp bh then some tmp else bh
    if better m.cache tmp bh ∧ badness (m.cache.bh tmp) = 0 then some (m, chosen w bh')
    else (m.cache.bh tmp).bNextFree.map fun x =>
      if x = m.cache.freeList then (m, chosen w bh') else (m, .go (.scan w x bh'))
  | .noBuffer w => some (m, .go (.lookup w))
  | .victimWait w b =>
    afterWait m b (.victimWait w b) <|
      if (m.cache.bh b).bCount ≠ 0 then some (m, .go (.lookup w))
      else some (m, .go (.checkDirty w b))
  | .checkDirty w b =>
    -- `sync_dev` does nothing
    if (m.cache.bh b).bDirt = 1 then some (m, .go (.victimWait w b))
    else some (m, .go (.claim w b))
  | .claim w b =>
    (m.cache.findBuffer w.dev w.block).map fun
      | some _ => (m, .go (.lookup w))
      | none =>
        match m.cache.claim b w.dev w.block with
        | none => (m, .go .panicked)
        | some c => ({ m with cache := c }, .go (.gotBlk w b))
  | .gotBlk w b =>
    if w.kind = .bread ∧ (m.cache.bh b).bUptodate = 0 then
      some (m, .go (.rwEntry (some w) BLK_READ b))
    else some (returns m w b)
  -- ll_rw_block
  | .rwEntry caller rw b =>
    if h : (MAJOR ((m.cache.bh b).bDev.zeroExtend 32)).toNat < BLK_DEV_KINDS then
      if m.dev.doReqFn ⟨_, h⟩ then
        if rw ≠ BLK_READ ∧ rw ≠ BLK_WRITE then some (m, .go .panicked)
        else some (m, .go (.lockWait caller rw b ⟨_, h⟩))
      else some (m, .go (.rwDone caller b))
    else some (m, .go (.rwDone caller b))
  | .lockWait caller rw b major =>
    afterWait m b (.lockWait caller rw b major) <|
      if (rw = BLK_WRITE ∧ (m.cache.bh b).bDirt = 0) ∨
          (rw = BLK_READ ∧ (m.cache.bh b).bUptodate ≠ 0) then
        -- locked and unlocked again
        some (m, .go (.rwDone caller b))
      else
        some (m.store b fun h => { h with bLock := 1 },
          .go (.findSlot caller rw b major NUMBER_OF_REQUESTS))
  | .findSlot caller rw b major 0 => some (m, .yield (.slotWait caller rw b major))
  | .findSlot caller rw b major (left + 1) =>
    let req : Slot := Fin.ofNat NUMBER_OF_REQUESTS left
    if (m.dev.request req).idle then some (m, .go (.fill caller rw b major req))
    else some (m, .go (.findSlot caller rw b major left))
  | .slotWait caller rw b major => some (m, .go (.findSlot caller rw b major NUMBER_OF_REQUESTS))
  | .fill caller rw b major req =>
    (m.request mode rw b major req).map fun m' => (m', .go (.rwDone caller b))
  | .rwDone none _ => some (m, .yield .idle)
  -- bread
  | .rwDone (some w) b => some (m, .go (.readWait w b))
  | .readWait w b =>
    afterWait m b (.readWait w b) <|
      if (m.cache.bh b).bUptodate ≠ 0 then some (returns m w b)
      else some (m, .go (.brelseWait (some w) b))
  -- brelse
  | .brelseWait caller b =>
    afterWait m b (.brelseWait caller b) <|
      if (m.cache.bh b).bCount = 0 then some (m, .go .panicked)
      else
        match caller with
        | none => some (m.unhold b, .yield .idle)
        | some w => some (m.unhold b, .go (.ret w none))
  | .ret _ _ => some (m, .yield .idle)

/-! ## The system -/

inductive Op (n : Nat)
  | want (w : Want)
  | brelse (b : Option (Fin n))
  | llRwBlock (rw : U32) (b : Fin n)
deriving DecidableEq, Repr

inductive Act (n : Nat) (Task : Type)
  | call (t : Task) (op : Op n)
  /-- `sleep_on` returns. -/
  | go (t : Task)
  | step (t : Task)
  | intr (ok : Bool)
  | setDirt (b : Fin n) (v : BitVec 8)
  | setUptodate (b : Fin n) (v : BitVec 8)
deriving DecidableEq, Repr

structure System (n : Nat) (Task : Type) where
  mem : Mem n
  pc : Task → Pc n
  running : Option Task

/-- The places where a task can be asleep. -/
def Pc.waits : Pc n → Bool
  | .hashWait .. | .noBuffer .. | .victimWait .. | .lockWait .. | .slotWait .. | .readWait ..
  | .brelseWait .. => true
  | _ => false

variable {Task : Type} [DecidableEq Task]

namespace System

def settle (s : System n Task) (t : Task) (m : Mem n) : Next n → System n Task
  | .go p => { mem := m, pc := Function.update s.pc t p, running := some t }
  | .yield p => { mem := m, pc := Function.update s.pc t p, running := none }

def call (s : System n Task) (t : Task) : Op n → System n Task
  | .want w => s.settle t s.mem (.go (.lookup w))
  | .brelse none => s
  | .brelse (some b) => s.settle t (s.mem.handBack b) (.go (.brelseWait none b))
  | .llRwBlock rw b => s.settle t s.mem (.go (.rwEntry none rw b))

def next (mode : AddMode) (s : System n Task) : Act n Task → Option (System n Task)
  | .call t op => if s.running = none ∧ s.pc t = .idle then some (s.call t op) else none
  | .go t =>
    if s.running = none ∧ (s.pc t).waits then some { s with running := some t } else none
  | .step t =>
    if s.running = some t then
      (exec mode s.mem (s.pc t)).map fun (m, nx) => s.settle t m nx
    else none
  | .intr ok => (s.mem.complete ok).map fun m => { s with mem := m }
  | .setDirt b v =>
    if s.running = none then
      some { s with mem := s.mem.store b fun h => { h with bDirt := v } }
    else none
  | .setUptodate b v =>
    if s.running = none then
      some { s with mem := s.mem.store b fun h => { h with bUptodate := v } }
    else none

abbrev Step (mode : AddMode) : System n Task → Act n Task → System n Task → Prop :=
  Steps (next mode)

end System

/-! ## The start -/

omit [DecidableEq Task]

/-- Every task is between calls. -/
structure System.Start (s : System n Task) : Prop where
  idle : ∀ t, s.pc t = .idle
  running : s.running = none

/-- The cache is as `buffer_init` leaves it, and every task is between calls. -/
structure Booted [NeZero n] (s : System n Task) : Prop extends s.Start where
  cache : ∃ bufferEnd blocknr, s.mem.cache = Cache.bufferInit bufferEnd blocknr

/-- The kernel after `buffer_init`, `blk_req_init` and `hd_init`, before any call. -/
def boot [NeZero n] (bufferEnd : U32) (blocknr : Fin n → U32) : System n Task where
  mem :=
    { cache := Cache.bufferInit bufferEnd blocknr
      dev := BlkDev.static.blkReqInit.hdInit
      handed := fun _ => 0
      last := fun _ => none
      added := fun _ => []
      retired := fun _ => [] }
  pc _ := .idle
  running := none

theorem booted_boot [NeZero n] (bufferEnd : U32) (blocknr : Fin n → U32) :
    Booted (boot bufferEnd blocknr : System n Task) where
  idle _ := rfl
  running := rfl
  cache := ⟨bufferEnd, blocknr, rfl⟩

end Io
end CherryOS
