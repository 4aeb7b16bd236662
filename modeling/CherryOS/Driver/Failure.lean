import CherryOS.Driver.Partition

/-!
# Failed commands

`bad_rw_intr` names the request that failed by `CURR_REQ`, three times.  When the count of
errors is full, `end_request` takes the request off the queue between the second time and
the third, and the third then means the next request, or the word at address 8.
-/

namespace CherryOS
namespace Driver

open Kernel (U32)
open Fs (BufferHead Cache)
open Lib

namespace Hd

variable {n : Nat} {s s' : Hd n} {req : Slot}

/-- The state after `end_request`, where `req` was the head. -/
def ended (s : Hd n) (req : Slot) (uptodate : Bool) : Hd n :=
  { s with
    dev := s.dev.retire BLK_DEV_NUM_HD req
    cache := s.cache.store (s.dev.request req).bh fun h =>
      { h with bUptodate := if uptodate then 1 else 0, bLock := 0 }
    retired := s.retired ++ [(req, uptodate)] }

theorem endRequest_head (h : s.currReq = some req) (uptodate : Bool) :
    s.endRequest uptodate = some (s.ended req uptodate) := by
  have hq : s.dev.reqQ BLK_DEV_NUM_HD = some req := h
  simp only [endRequest, h, BlkDev.endRequest, hq, Option.bind_some, Option.map_some, ended]

/-- `CURR_REQ->errors++`. -/
def counted (s : Hd n) (req : Slot) : Hd n :=
  s.setReq req fun r => { r with errors := r.errors + 1 }

/-- The failure that was just counted is the last one. -/
def gaveUp (s : Hd n) (req : Slot) : Bool :=
  MAX_ERRORS.sle ((s.dev.request req).errors + 1)

/-- The state in which `bad_rw_intr` looks at `CURR_REQ->errors` for the last time. -/
def tested (s : Hd n) (req : Slot) : Hd n :=
  if s.gaveUp req then (s.counted req).ended req false else s.counted req

theorem counted_currReq : (s.counted req).currReq = s.currReq := rfl

theorem counted_self : (s.counted req).dev.request req =
    { s.dev.request req with errors := (s.dev.request req).errors + 1 } := setReq_self _

theorem counted_other {x : Slot} (hx : x ≠ req) :
    (s.counted req).dev.request x = s.dev.request x := by
  rw [counted, setReq, BlkDev.set_request, if_neg hx]

theorem ended_currReq (uptodate : Bool) :
    (s.ended req uptodate).currReq = (s.dev.request req).next := by
  show (s.dev.retire BLK_DEV_NUM_HD req).reqQ BLK_DEV_NUM_HD = _
  rw [BlkDev.retire]
  dsimp only
  rw [Function.update_self, BlkDev.set_request, if_pos rfl]

theorem ended_request (uptodate : Bool) (x : Slot) :
    (s.ended req uptodate).dev.request x =
      if x = req then { s.dev.request x with dev := -1 } else s.dev.request x :=
  BlkDev.retire_request ..

theorem badRwIntr_head (h : s.currReq = some req) :
    s.badRwIntr = some { s.tested req with
      reset := s.reset || (MAX_ERRORS / 2).slt (s.tested req).currErrors } := by
  have hcount : (s.counted req).currErrors = (s.dev.request req).errors + 1 := by
    simp only [currErrors, counted_currReq, h, counted_self]
  have hended : (s.counted req).endRequest false = some ((s.counted req).ended req false) :=
    endRequest_head (counted_currReq.trans h) false
  simp only [badRwIntr, h, Option.bind_eq_bind, Option.bind_some]
  by_cases hfull : MAX_ERRORS.sle ((s.dev.request req).errors + 1) = true
  · rw [show (s.setReq req _).currErrors = _ from hcount,
      show (s.setReq req _).endRequest false = _ from hended, if_pos hfull, tested, gaveUp,
      if_pos hfull]
    rfl
  · rw [tested, gaveUp, if_neg hfull, if_neg (hcount ▸ hfull)]
    rfl

theorem badRwIntr_isSome (h : s.currReq = some req) : ∃ s', s.badRwIntr = some s' :=
  ⟨_, badRwIntr_head h⟩

/-! ## What a failure is allowed to touch -/

/-- A failure of `req` that concerns no other request. -/
structure FailsAlone (s s' : Hd n) (req : Slot) : Prop where
  /-- `CURR_REQ` is a request at the last test as well. -/
  exists_last : (s.tested req).currReq ≠ none
  counts : (s'.dev.request req).errors = (s.dev.request req).errors + 1
  others : ∀ x, x ≠ req → s'.dev.request x = s.dev.request x
  retires : s'.retired = if s.gaveUp req then s.retired ++ [(req, false)] else s.retired
  resets : s'.reset = (s.reset || (MAX_ERRORS / 2).slt ((s.dev.request req).errors + 1))

/-- The request is kept, or another one follows it and the driver is reset anyway. -/
def ResetsAnyway (s : Hd n) (req : Slot) : Prop :=
  s.gaveUp req = false ∨
    ∃ x, (s.dev.request req).next = some x ∧
      (s.reset = true ∨ x = req ∨ (MAX_ERRORS / 2).slt (s.dev.request x).errors = true)

/-- All but the last test is about the failed request, in any case. -/
theorem tested_request (x : Slot) :
    ((s.tested req).dev.request x).errors =
        (if x = req then (s.dev.request req).errors + 1 else (s.dev.request x).errors) ∧
      (x ≠ req → (s.tested req).dev.request x = s.dev.request x) := by
  by_cases hx : x = req
  · subst hx
    refine ⟨?_, fun hne => absurd rfl hne⟩
    rw [tested, if_pos rfl]
    split
    · rw [ended_request, if_pos rfl, counted_self]
    · rw [counted_self]
  · have hsame : (s.tested req).dev.request x = s.dev.request x := by
      rw [tested]
      split
      · rw [ended_request, if_neg hx, counted_other hx]
      · exact counted_other hx
    exact ⟨by rw [hsame, if_neg hx], fun _ => hsame⟩

theorem tested_retired :
    (s.tested req).retired = if s.gaveUp req then s.retired ++ [(req, false)] else s.retired := by
  rw [tested]
  split <;> rfl

theorem tested_currReq (h : s.currReq = some req) :
    (s.tested req).currReq = if s.gaveUp req then (s.dev.request req).next else some req := by
  rw [tested]
  split
  · rw [ended_currReq, counted_self]
  · exact h

/-- A full count is more than half full. -/
theorem slt_of_sle {e : U32} (h : MAX_ERRORS.sle e = true) : (MAX_ERRORS / 2).slt e = true := by
  have h7 : MAX_ERRORS.toInt = 7 := rfl
  have h3 : (MAX_ERRORS / 2).toInt = 3 := rfl
  rw [BitVec.sle_iff_toInt_le, h7] at h
  rw [BitVec.slt_iff_toInt_lt, h3]
  omega

/-- A failed command concerns its own request alone, if and only if the request is kept or
the driver is reset for another reason. -/
theorem badRwIntr_alone_iff (h : s.currReq = some req) :
    (∃ s', s.badRwIntr = some s' ∧ s.FailsAlone s' req) ↔ s.ResetsAnyway req := by
  rw [badRwIntr_head h]
  have hcur := tested_currReq h
  constructor
  · rintro ⟨s', hs', hlast, -, -, -, hresets⟩
    cases hgave : s.gaveUp req with
    | false => exact Or.inl hgave
    | true =>
      rw [hgave, if_pos rfl] at hcur
      obtain ⟨x, hx⟩ := Option.ne_none_iff_exists'.mp hlast
      refine Or.inr ⟨x, hcur ▸ hx, ?_⟩
      cases hs'
      dsimp only at hresets
      rw [slt_of_sle hgave, Bool.or_true, currErrors, hx, Bool.or_eq_true] at hresets
      dsimp only at hresets
      rw [(tested_request x).1] at hresets
      by_cases hxr : x = req
      · exact Or.inr (Or.inl hxr)
      · rw [if_neg hxr] at hresets
        exact hresets.imp id Or.inr
  · intro hany
    refine ⟨_, rfl, ?_, ?_, fun x hx => (tested_request x).2 hx, tested_retired, ?_⟩
    · rw [hcur]
      rcases hany with hkept | ⟨x, hx, -⟩
      · rw [hkept]
        exact Option.some_ne_none req
      · split
        · rw [hx]
          exact Option.some_ne_none x
        · exact Option.some_ne_none req
    · exact (tested_request req).1.trans (if_pos rfl)
    · dsimp only
      cases hgave : s.gaveUp req with
      | false =>
        rw [hgave, if_neg Bool.false_ne_true] at hcur
        rw [currErrors, hcur]
        dsimp only
        rw [(tested_request req).1, if_pos rfl]
      | true =>
        rw [hgave, if_pos rfl] at hcur
        rcases hany with hkept | ⟨x, hx, hwhy⟩
        · rw [hgave] at hkept
          cases hkept
        rw [slt_of_sle hgave, Bool.or_true, currErrors, hcur, hx]
        dsimp only
        rw [(tested_request x).1]
        rcases hwhy with hreset | rfl | hslt
        · rw [hreset, Bool.true_or]
        · rw [if_pos rfl, slt_of_sle hgave, Bool.or_true]
        · split
          · rw [slt_of_sle hgave, Bool.or_true]
          · rw [hslt, Bool.or_true]

end Hd

/-! ## The seventh failure

Requests 31 and 30 are to read two blocks, and the command for the first of them has failed
six times already. -/

namespace SeventhFailure

def cache : Cache 2 :=
  let c := (Cache.bufferInit 0x200000 fun _ => 0).store (some 0) fun h =>
    { h with bDev := 0x301, bBlocknr := 5, bCount := 1, bLock := 1 }
  c.store (some 1) fun h => { h with bDev := 0x301, bBlocknr := 6, bCount := 1, bLock := 1 }

def one : BlkDev 2 :=
  (BlkDev.static.blkReqInit.hdInit.fill 31 BLK_READ 0 (cache.bh 0)).addRequest .linking
    BLK_DEV_NUM_HD 31 |>.getD BlkDev.static

def two : BlkDev 2 :=
  (one.fill 30 BLK_READ 1 (cache.bh 1)).addRequest .linking BLK_DEV_NUM_HD 30 |>.getD one

def failed (dev : BlkDev 2) (errors : U32) : Hd 2 where
  dev := dev.set 31 fun r => { r with errors := errors }
  cache := cache
  mem _ := 0
  reset := false
  recalibrate := false
  doHd := some .readIntr
  ctl := { ports := fun _ => 0, data := fun _ => 0, job := .idle }
  disks _ l i := .ofNat 8 (l + i.val)
  repeating := false
  retired := []

end SeventhFailure

open SeventhFailure in
theorem badRwIntr_alone_iff_second_failure :
    ∃ s', (failed two 1).badRwIntr = some s' ∧ (failed two 1).FailsAlone s' 31 := by
  have hkept : (failed two 1).gaveUp 31 = false := by decide +kernel
  exact (Hd.badRwIntr_alone_iff (by decide +kernel)).mpr (Or.inl hkept)

open SeventhFailure in
/-- Without another request the last test reads through a null pointer, and with one the
driver is not reset. -/
theorem seventh_failure_not_alone :
    ((failed one 6).currReq = some 31 ∧ ((failed one 6).tested 31).currReq = none) ∧
      (failed two 6).currReq = some 31 ∧ ((failed two 6).tested 31).currReq = some 30 ∧
      ((failed two 6).badRwIntr.map fun s' => (s'.reset, s'.retired)) =
        some (false, [(31, false)]) ∧
      ¬ (∃ s', (failed one 6).badRwIntr = some s' ∧ (failed one 6).FailsAlone s' 31) ∧
      ¬ ∃ s', (failed two 6).badRwIntr = some s' ∧ (failed two 6).FailsAlone s' 31 := by
  have hnone : ((failed one 6).tested 31).currReq = none := by decide +kernel
  have hreset : ((failed two 6).badRwIntr.map fun s' => (s'.reset, s'.retired)) =
      some (false, [(31, false)]) := by decide +kernel
  refine ⟨⟨by decide +kernel, hnone⟩, by decide +kernel, by decide +kernel, hreset, ?_, ?_⟩
  · rintro ⟨s', -, halone⟩
    exact halone.exists_last hnone
  · rintro ⟨s', hs', halone⟩
    have hown : ((failed two 6).reset ||
        (MAX_ERRORS / 2).slt (((failed two 6).dev.request 31).errors + 1)) = true := by
      decide +kernel
    rw [hs', Option.map_some, halone.resets, hown] at hreset
    cases hreset

end Driver
end CherryOS
