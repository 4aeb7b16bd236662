import CherryOS.Driver.Scrolling
import CherryOS.Lib.Ring

/-!
# The queues of a terminal

The macros of `include/linux/tty.h`.  A queue whose indices are places of its buffer holds a
list, `pending`, of at most 1023 bytes: each macro is what it does to that list.
-/

namespace CherryOS
namespace Driver
namespace TtyQueue

open Lib Kernel

def WRITE_SPACE (q : TtyQueue) : U32 := (q.tail - q.head - 1) &&& (TTY_BUF_SIZE - 1)

def EMPTY (q : TtyQueue) : Prop := q.READ_SPACE = 0

def FULL (q : TtyQueue) : Prop := q.WRITE_SPACE = 0

instance (q : TtyQueue) : Decidable q.EMPTY := inferInstanceAs (Decidable (_ = _))

instance (q : TtyQueue) : Decidable q.FULL := inferInstanceAs (Decidable (_ = _))

def LAST (q : TtyQueue) : BitVec 8 := q.buf ((q.head - 1) &&& (TTY_BUF_SIZE - 1))

/-- `DEC` of the head -/
def decHead (q : TtyQueue) : TtyQueue := { q with head := (q.head - 1) &&& (TTY_BUF_SIZE - 1) }

/-- A byte at the head, and `INC` of the head. -/
def put (c : BitVec 8) (q : TtyQueue) : TtyQueue :=
  { q with
    buf := fun i => if i = q.head then c else q.buf i
    head := (q.head + 1) &&& (TTY_BUF_SIZE - 1) }

structure Valid (q : TtyQueue) : Prop where
  head : q.head.toNat < 1024
  tail : q.tail.toNat < 1024

variable {q : TtyQueue} {c : BitVec 8}

theorem and_toNat (x : U32) : (x &&& (TTY_BUF_SIZE - 1)).toNat = x.toNat % 1024 := by
  rw [BitVec.toNat_and]
  exact Nat.and_two_pow_sub_one_eq_mod x.toNat 10

theorem inc_toNat (x : U32) : ((x + 1) &&& (TTY_BUF_SIZE - 1)).toNat = (x.toNat + 1) % 1024 := by
  rw [and_toNat, BitVec.toNat_add, Nat.mod_mod_of_dvd _ (by decide)]
  rfl

theorem dec_toNat (x : U32) :
    ((x - 1) &&& (TTY_BUF_SIZE - 1)).toNat = (x.toNat + 1023) % 1024 := by
  have hsub : (x - 1).toNat = (2 ^ 32 - 1 + x.toNat) % 2 ^ 32 := BitVec.toNat_sub x 1
  rw [and_toNat, hsub]
  omega

theorem READ_SPACE_toNat (h : q.Valid) :
    q.READ_SPACE.toNat = (q.head.toNat + 1024 - q.tail.toNat) % 1024 := by
  have htail := h.tail
  rw [READ_SPACE, and_toNat, BitVec.toNat_sub]
  omega

theorem WRITE_SPACE_toNat (h : q.Valid) : q.WRITE_SPACE.toNat = 1023 - q.READ_SPACE.toNat := by
  have hhead := h.head
  have htail := h.tail
  have hsub : (q.tail - q.head - 1).toNat = (2 ^ 32 - 1 + (q.tail - q.head).toNat) % 2 ^ 32 :=
    BitVec.toNat_sub _ 1
  rw [READ_SPACE_toNat h, WRITE_SPACE, and_toNat, hsub, BitVec.toNat_sub]
  omega

namespace Valid

theorem incTail (h : q.Valid) : q.incTail.Valid :=
  ⟨h.head, by rw [TtyQueue.incTail, inc_toNat]; exact Nat.mod_lt _ (by decide)⟩

theorem decHead (h : q.Valid) : q.decHead.Valid :=
  ⟨by rw [TtyQueue.decHead, dec_toNat]; exact Nat.mod_lt _ (by decide), h.tail⟩

theorem put (h : q.Valid) (c : BitVec 8) : (q.put c).Valid :=
  ⟨by rw [TtyQueue.put, inc_toNat]; exact Nat.mod_lt _ (by decide), h.tail⟩

end Valid

/-! ## The list of a queue -/

/-- The buffer with its places as numbers. -/
def cell (q : TtyQueue) (i : Nat) : BitVec 8 := q.buf (BitVec.ofNat 32 i)

theorem cell_toNat (x : U32) : q.cell x.toNat = q.buf x := by
  rw [cell, BitVec.ofNat_toNat, BitVec.setWidth_eq]

theorem bytes_eq (h : q.Valid) (n : Nat) : q.bytes n = Ring.read q.cell 1024 q.tail.toNat n := by
  induction n generalizing q with
  | zero => rfl
  | succ n ih =>
    have hnext : q.incTail.tail.toNat = (q.tail.toNat + 1) % 1024 := inc_toNat q.tail
    have hrest := ih h.incTail
    rw [hnext, Ring.read_mod] at hrest
    rw [bytes, Ring.read, Nat.mod_eq_of_lt h.tail, cell_toNat, hrest]
    rfl

theorem pending_eq (h : q.Valid) :
    q.pending = Ring.read q.cell 1024 q.tail.toNat q.READ_SPACE.toNat :=
  bytes_eq h _

theorem pending_length (h : q.Valid) : q.pending.length = q.READ_SPACE.toNat := by
  rw [pending_eq h, Ring.read_length]

theorem empty_iff (h : q.Valid) : q.EMPTY ↔ q.pending = [] := by
  rw [← List.length_eq_zero_iff, pending_length h]
  exact ⟨congrArg BitVec.toNat, fun hzero => BitVec.eq_of_toNat_eq hzero⟩

theorem full_iff (h : q.Valid) : q.FULL ↔ q.pending.length = 1023 := by
  have hspace := WRITE_SPACE_toNat h
  have hread := READ_SPACE_toNat h
  have hzero : q.FULL ↔ q.WRITE_SPACE.toNat = 0 :=
    ⟨congrArg BitVec.toNat, fun hzero => BitVec.eq_of_toNat_eq hzero⟩
  rw [hzero, pending_length h]
  omega

/-- The byte at the tail comes first. -/
theorem pending_cons (h : q.Valid) (hne : ¬ q.EMPTY) :
    q.pending = q.buf q.tail :: q.incTail.pending := by
  have hhead := h.head
  have htail := h.tail
  have hpos : q.READ_SPACE.toNat ≠ 0 := fun hzero => hne (BitVec.eq_of_toNat_eq hzero)
  have hinc : q.incTail.tail.toNat = (q.tail.toNat + 1) % 1024 := inc_toNat q.tail
  have hrest : q.READ_SPACE.toNat = q.incTail.READ_SPACE.toNat + 1 := by
    rw [READ_SPACE_toNat h] at hpos ⊢
    rw [READ_SPACE_toNat h.incTail, hinc]
    show _ = (q.head.toNat + 1024 - _) % 1024 + 1
    omega
  rw [pending, hrest, bytes]
  rfl

/-- As many bytes as wait can be taken, and leave none. -/
theorem iterate_incTail (h : q.Valid) {n : Nat} (hn : n = q.READ_SPACE.toNat) :
    (incTail^[n] q).Valid ∧ (incTail^[n] q).pending = [] := by
  induction n generalizing q with
  | zero =>
    refine ⟨h, List.length_eq_zero_iff.mp ?_⟩
    rw [Function.iterate_zero_apply, pending_length h, ← hn]
  | succ n ih =>
    have hne : ¬ q.EMPTY := fun hempty => by
      rw [EMPTY] at hempty
      rw [hempty] at hn
      cases hn
    have hlength := congrArg List.length (pending_cons h hne)
    rw [List.length_cons, pending_length h, pending_length h.incTail] at hlength
    rw [Function.iterate_succ_apply]
    exact ih h.incTail (by omega)

/-- The last byte, and the queue without it. -/
theorem pending_decHead (h : q.Valid) (hne : ¬ q.EMPTY) :
    q.pending = q.decHead.pending ++ [q.LAST] := by
  have hhead := h.head
  have htail := h.tail
  have hpos : q.READ_SPACE.toNat ≠ 0 := fun hzero => hne (BitVec.eq_of_toNat_eq hzero)
  have hdec : q.decHead.head.toNat = (q.head.toNat + 1023) % 1024 := dec_toNat q.head
  have hspace := READ_SPACE_toNat h
  have hrest : q.READ_SPACE.toNat = q.decHead.READ_SPACE.toNat + 1 := by
    rw [READ_SPACE_toNat h.decHead, hdec]
    show _ = (_ + 1024 - q.tail.toNat) % 1024 + 1
    omega
  have hplace : (q.tail.toNat + q.decHead.READ_SPACE.toNat) % 1024 =
      ((q.head - 1) &&& (TTY_BUF_SIZE - 1)).toNat := by
    rw [dec_toNat]
    omega
  rw [pending_eq h, pending_eq h.decHead, hrest, Ring.read_succ, hplace, cell_toNat]
  rfl

theorem pending_put (h : q.Valid) (hroom : ¬ q.FULL) (c : BitVec 8) :
    (q.put c).pending = q.pending ++ [c] := by
  have hhead := h.head
  have htail := h.tail
  have hspace := READ_SPACE_toNat h
  have hlength := pending_length h
  have hroom' : q.READ_SPACE.toNat ≠ 1023 := fun hfull =>
    hroom ((full_iff h).mpr (hlength.trans hfull))
  have hput : (q.put c).head.toNat = (q.head.toNat + 1) % 1024 := inc_toNat q.head
  have hmore : (q.put c).READ_SPACE.toNat = q.READ_SPACE.toNat + 1 := by
    rw [READ_SPACE_toNat (h.put c), hput]
    show (_ + 1024 - q.tail.toNat) % 1024 = _
    omega
  have hplace : (q.tail.toNat + q.READ_SPACE.toNat) % 1024 = q.head.toNat := by omega
  have htail' : (q.put c).tail = q.tail := rfl
  rw [pending_eq (h.put c), pending_eq h, hmore, htail']
  refine Ring.read_put (by omega) ?_ fun i hi hne => if_neg fun heq => hne ?_
  · rw [hplace, cell_toNat]
    exact if_pos rfl
  · have hi' := congrArg BitVec.toNat heq
    rw [BitVec.toNat_ofNat] at hi'
    omega

def puts (q : TtyQueue) (bytes : List (BitVec 8)) : TtyQueue :=
  bytes.foldl (fun q c => q.put c) q

theorem puts_valid (h : q.Valid) (bytes : List (BitVec 8)) : (q.puts bytes).Valid := by
  induction bytes generalizing q with
  | nil => exact h
  | cons c bytes ih => exact ih (h.put c)

/-- Bytes that fit are put after what waits. -/
theorem pending_puts (h : q.Valid) {bytes : List (BitVec 8)}
    (hroom : q.pending.length + bytes.length ≤ 1023) :
    (q.puts bytes).pending = q.pending ++ bytes := by
  induction bytes generalizing q with
  | nil => exact (List.append_nil _).symm
  | cons c bytes ih =>
    rw [List.length_cons] at hroom
    have hspace : ¬ q.FULL := fun hfull => by
      rw [full_iff h] at hfull
      omega
    have hput := pending_put h hspace c
    have hrest := ih (h.put c) (by rw [hput, List.length_append, List.length_singleton]; omega)
    rw [hput, List.append_assoc] at hrest
    exact hrest

theorem pending_length_le (h : q.Valid) : q.pending.length ≤ 1023 := by
  rw [pending_length h, READ_SPACE_toNat h]
  omega

/-- A byte more than fits brings the head back to the tail. -/
theorem pending_put_full (h : q.Valid) (hfull : q.FULL) (c : BitVec 8) :
    (q.put c).pending = [] := by
  have hhead := h.head
  have htail := h.tail
  have hspace := READ_SPACE_toNat h
  rw [full_iff h, pending_length h] at hfull
  have hput : (q.put c).head.toNat = (q.head.toNat + 1) % 1024 := inc_toNat q.head
  have hnone : (q.put c).READ_SPACE.toNat = 0 := by
    rw [READ_SPACE_toNat (h.put c), hput]
    show (_ + 1024 - q.tail.toNat) % 1024 = _
    omega
  rw [← pending_length (h.put c)] at hnone
  exact List.length_eq_zero_iff.mp hnone

/-- Of any number of bytes a queue that was empty keeps those after the last time round. -/
theorem pending_puts_empty (h : q.Valid) (hempty : q.EMPTY) (bytes : List (BitVec 8)) :
    (q.puts bytes).pending = bytes.drop (bytes.length / 1024 * 1024) := by
  induction bytes using List.reverseRecOn with
  | nil => exact (empty_iff h).mp hempty
  | append_singleton bytes c ih =>
    have hputs : q.puts (bytes ++ [c]) = (q.puts bytes).put c := List.foldl_append
    have hvalid := puts_valid h bytes
    have hlen : (q.puts bytes).pending.length = bytes.length % 1024 := by
      rw [ih, List.length_drop]
      omega
    rw [hputs, List.length_append, List.length_singleton]
    by_cases hfull : (q.puts bytes).FULL
    · rw [full_iff hvalid, hlen] at hfull
      have hround : (bytes.length + 1) / 1024 * 1024 = bytes.length + 1 := by omega
      rw [pending_put_full hvalid ((full_iff hvalid).mpr (hlen.trans hfull)), hround,
        List.drop_of_length_le (by rw [List.length_append, List.length_singleton])]
    · have hroom : bytes.length % 1024 ≠ 1023 := fun hc =>
        hfull ((full_iff hvalid).mpr (hlen.trans hc))
      have hround : (bytes.length + 1) / 1024 * 1024 = bytes.length / 1024 * 1024 := by omega
      rw [pending_put hvalid hfull, ih, hround, List.drop_append_of_le_length (by omega)]

end TtyQueue
end Driver
end CherryOS
