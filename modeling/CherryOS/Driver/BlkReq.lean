import CherryOS.Fs.Buffer

/-!
# The block request table

A request is a slot of a static table, and a device with requests has a queue of slots,
linked by `next` from `req_q`.  Only one driver exists, the hard disk's, and
`end_request` is the part of it that retires the head of its queue.

`add_request` never assigns `req_q`: on an empty queue it assigns a local.  What the
kernel would do with that line mended is the mode `linking`.
-/

namespace CherryOS
namespace Driver

open Kernel (U32)
open Fs (BufferHead Cache)
open Lib

def BLK_DEV_KINDS : Nat := 7
def NUMBER_OF_REQUESTS : Nat := 32

abbrev Major := Fin BLK_DEV_KINDS
abbrev Slot := Fin NUMBER_OF_REQUESTS

instance : NeZero NUMBER_OF_REQUESTS := ⟨by decide⟩

def BLK_DEV_NUM_HD : Major := ⟨3, by decide⟩

def BLK_READ : U32 := 0
def BLK_WRITE : U32 := 1

def MAJOR (a : U32) : U32 := a >>> 8
def MINOR (a : U32) : U32 := a &&& 0xFF

structure BlkRequest (n : Nat) where
  dev : U32
  cmd : U32
  errors : U32
  sector : U32
  nrSector : U32
  buffer : U32
  bh : Option (Fin n)
  next : Option Slot
deriving DecidableEq, Repr

/-- `request[]` and `blk_dev[]`.  `doReqFn m` says whether device kind `m` has a driver. -/
structure BlkDev (n : Nat) where
  request : Slot → BlkRequest n
  doReqFn : Major → Bool
  reqQ : Major → Option Slot

/-- `req->dev < 0`. -/
def BlkRequest.idle {n : Nat} (r : BlkRequest n) : Bool := r.dev.slt 0

inductive AddMode
  | asWritten
  | linking
deriving DecidableEq, Repr

namespace BlkDev

variable {n : Nat}

def set (d : BlkDev n) (r : Slot) (f : BlkRequest n → BlkRequest n) : BlkDev n :=
  { d with request := Function.update d.request r (f (d.request r)) }

@[simp] theorem set_doReqFn (d : BlkDev n) (r : Slot) (f : BlkRequest n → BlkRequest n) :
    (d.set r f).doReqFn = d.doReqFn := rfl

@[simp] theorem set_reqQ (d : BlkDev n) (r : Slot) (f : BlkRequest n → BlkRequest n) :
    (d.set r f).reqQ = d.reqQ := rfl

theorem set_request (d : BlkDev n) (r x : Slot) (f : BlkRequest n → BlkRequest n) :
    (d.set r f).request x = if x = r then f (d.request x) else d.request x := by
  rw [set]
  by_cases hx : x = r
  · subst hx
    simp
  · simp [hx]

/-- The stores of `make_request` to the idle slot it found. -/
def fill (d : BlkDev n) (r : Slot) (rw : U32) (b : Fin n) (h : BufferHead n) : BlkDev n :=
  d.set r fun _ =>
    { dev := h.bDev.zeroExtend 32, cmd := rw, errors := 0, sector := h.bBlocknr * 2,
      nrSector := 2, bh := some b, buffer := h.bData, next := none }

/-- `add_request`, but for the dirty flag it clears.  `none`: the walk to the tail does
not end. -/
def addRequest (mode : AddMode) (d : BlkDev n) (m : Major) (req : Slot) : Option (BlkDev n) :=
  let d := d.set req fun r => { r with next := none }
  match d.reqQ m with
  | none =>
    match mode with
    | .asWritten => some d -- `tmp = req`
    | .linking => some { d with reqQ := Function.update d.reqQ m (some req) }
  | some q =>
    match search (fun x => (d.request x).next) (fun x => decide ((d.request x).next = none))
        NUMBER_OF_REQUESTS (some q) with
    | some (some tmp) => some (d.set tmp fun r => { r with next := some req })
    | _ => none

/-- The stores of `end_request` to the table: `req` becomes idle and the queue goes on. -/
def retire (d : BlkDev n) (m : Major) (req : Slot) : BlkDev n :=
  let d := d.set req fun r => { r with dev := -1 }
  { d with reqQ := Function.update d.reqQ m (d.request req).next }

/-- `end_request(uptodate)`.  `none`: the queue is empty. -/
def endRequest (d : BlkDev n) (c : Cache n) (uptodate : Bool) : Option (BlkDev n × Cache n) :=
  (d.reqQ BLK_DEV_NUM_HD).map fun req =>
    (d.retire BLK_DEV_NUM_HD req,
      c.store (d.request req).bh fun h =>
        { h with bUptodate := if uptodate then 1 else 0, bLock := 0 })

/-- The static table, all zeros. -/
def static : BlkDev n where
  request _ :=
    { dev := 0, cmd := 0, errors := 0, sector := 0, nrSector := 0, buffer := 0, bh := none,
      next := none }
  doReqFn _ := false
  reqQ _ := none

/-- `blk_req_init`. -/
def blkReqInit (d : BlkDev n) : BlkDev n :=
  { d with request := fun i => { d.request i with dev := -1, next := none } }

/-- The store of `hd_init` to the table. -/
def hdInit (d : BlkDev n) : BlkDev n :=
  { d with doReqFn := Function.update d.doReqFn BLK_DEV_NUM_HD true }

@[simp] theorem fill_doReqFn (d : BlkDev n) (r : Slot) (rw : U32) (b : Fin n)
    (h : BufferHead n) : (d.fill r rw b h).doReqFn = d.doReqFn := rfl

@[simp] theorem fill_reqQ (d : BlkDev n) (r : Slot) (rw : U32) (b : Fin n)
    (h : BufferHead n) : (d.fill r rw b h).reqQ = d.reqQ := rfl

theorem retire_request (d : BlkDev n) (m : Major) (req r : Slot) :
    (d.retire m req).request r =
      if r = req then { d.request r with dev := -1 } else d.request r := by
  show (d.set req fun r => { r with dev := -1 }).request r = _
  rw [set_request]

/-- `add_request` assigns only links. -/
theorem addRequest_request {mode : AddMode} {d d' : BlkDev n} {m : Major} {req : Slot}
    (h : d.addRequest mode m req = some d') :
    d'.doReqFn = d.doReqFn ∧
      ∀ x, { d'.request x with next := none } = { d.request x with next := none } := by
  have hset : ∀ (e : BlkDev n) (r x : Slot) (o : Option Slot),
      { (e.set r fun q => { q with next := o }).request x with next := none } =
        { e.request x with next := none } := by
    intro e r x o
    rw [set_request]
    split <;> rfl
  simp only [addRequest] at h
  split at h
  · cases mode with
    | asWritten =>
      cases h
      exact ⟨rfl, fun x => hset d req x none⟩
    | linking =>
      cases h
      exact ⟨rfl, fun x => hset d req x none⟩
  · split at h
    · cases h
      exact ⟨rfl, fun x => (hset _ _ x _).trans (hset d req x none)⟩
    · cases h

end BlkDev

theorem idle_neg_one {n : Nat} (r : BlkRequest n) :
    ({ r with dev := -1 } : BlkRequest n).idle = true := by
  simp [BlkRequest.idle]

/-- A device number is not negative as an `int32_t`. -/
theorem slt_zeroExtend (d : BitVec 16) : (d.zeroExtend 32).slt 0 = false := by
  rw [BitVec.ofNat_eq_ofNat, BitVec.slt_zero_eq_msb, BitVec.zeroExtend, BitVec.msb_setWidth,
    BitVec.getLsbD_of_ge d 31 (by decide), Bool.and_false]

end Driver
end CherryOS
