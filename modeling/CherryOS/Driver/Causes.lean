import CherryOS.Driver.Retries

/-!
# Why a request is given up

`do_hd_request` compares the sector that comes next with the size of the partition each time
it looks at the request.  Before the first sector is moved that is the first sector of the
block, and after it the second, and the second sector of the last block looks as if it were
the first of a block that does not fit.
-/

namespace CherryOS
namespace Driver

open Kernel (U32)
open Fs (BufferHead Cache)
open Lib

variable {n : Nat} {D : Drives} {block : Slot → U32}

namespace Hd

/-- The request whose command fails. -/
def failedHead (D : Drives) (s : Hd n) (a : Answers) : Option Slot :=
  s.currReq.filter fun req => s.fails D a req

/-- The driver with the requests whose commands have failed, oldest first. -/
def judge (D : Drives) (s : Hd n × List Slot) (a : Answers) : Option (Hd n × List Slot) :=
  (s.1.tick D a).map fun s' => (s', s.2 ++ (s.1.failedHead D a).toList)

/-- The queue as `make_request` builds it: request `r` is for block `block r`. -/
structure Fresh (s : Hd n) (l : List Slot) (block : Slot → U32) : Prop extends Queue s l where
  sector : ∀ r ∈ l, (s.dev.request r).sector = block r * 2
  nrSector : ∀ r ∈ l, (s.dev.request r).nrSector = 2
  errors : ∀ r ∈ l, (s.dev.request r).errors = 0
  retired : s.retired = []

/-- The block is not wholly in its partition, or the driver has tried often enough. -/
def Cause (D : Drives) (block : Slot → U32) (s₀ : Hd n) (log : List Slot) (r : Slot) : Prop :=
  ¬ D.InPartition (s₀.dev.request r).dev (block r) ∨ MAX_ERRORS.toNat ≤ log.count r

/-- One sector of the request is left, and its partition ends with the block. -/
def lastHalf (D : Drives) (block : Slot → U32) (s : Hd n) (req : Slot) : Bool :=
  decide ((s.dev.request req).nrSector = 1) &&
    (D.find ((MINOR (s.dev.request req).dev).setWidth 8)).any fun found =>
      decide (found.2.nrSects.toNat = 2 * (block req).toNat + 2)

/-- `do_hd_request` looks at the second half of the last block of a partition, and there were
not enough failures yet. -/
def misjudges (D : Drives) (block : Slot → U32) (s : Hd n × List Slot) : Bool :=
  s.1.repeating && s.1.currReq.any fun req =>
    s.1.lastHalf D block req && decide (s.2.count req < MAX_ERRORS.toNat)

/-- Of request `r`, `k` sectors have been moved, and its failures are on record. -/
structure Standing (s₀ s : Hd n) (block : Slot → U32) (log : List Slot) (r : Slot) (k : Nat) :
    Prop where
  le : k ≤ 1
  dev : (s.dev.request r).dev = (s₀.dev.request r).dev
  sector : (s.dev.request r).sector = block r * 2 + BitVec.ofNat 32 k
  nrSector : (s.dev.request r).nrSector = BitVec.ofNat 32 (2 - k)
  counted : (s.dev.request r).errors.toNat ≤ log.count r
  errors : (s.dev.request r).errors.toNat < MAX_ERRORS.toNat

/-- No request was given up without a cause. -/
structure Judged (D : Drives) (block : Slot → U32) (s₀ s : Hd n) (log : List Slot) : Prop where
  queue : ∃ l, s.Queue l ∧ ∀ r ∈ l, ∃ k, Standing s₀ s block log r k
  causes : ∀ r, (r, false) ∈ s.retired → Cause D block s₀ log r

section judged

variable {s₀ s s' : Hd n} {a : Answers} {log log' l : List Slot} {req r : Slot} {k : Nat}

theorem Cause.mono (h : Cause D block s₀ log r) (x : List Slot) :
    Cause D block s₀ (log ++ x) r := by
  rw [Cause, List.count_append]
  exact h.imp_right fun hle => hle.trans (Nat.le_add_right _ _)

theorem Standing.congr (h : Standing s₀ s block log r k)
    (hreq : s'.dev.request r = s.dev.request r) (x : List Slot) :
    Standing s₀ s' block (log ++ x) r k := by
  refine ⟨h.le, ?_, ?_, ?_, ?_, ?_⟩
  · rw [hreq, h.dev]
  · rw [hreq, h.sector]
  · rw [hreq, h.nrSector]
  · rw [hreq, List.count_append]
    exact h.counted.trans (Nat.le_add_right _ _)
  · rw [hreq]
    exact h.errors

/-- A sector was moved, and the request is not over. -/
theorem Standing.moved (h : Standing s₀ s block log req k) (hkeeps : Keeps s s' req)
    (hsector : (s'.dev.request req).sector = (s.dev.request req).sector + 1)
    (hnr : (s'.dev.request req).nrSector = (s.dev.request req).nrSector - 1)
    (hmore : (s.dev.request req).nrSector - 1 ≠ 0)
    (herrors : (s'.dev.request req).errors = 0 ∨
      (s'.dev.request req).errors = (s.dev.request req).errors) :
    Standing s₀ s' block log req 1 := by
  have hk : k = 0 := by
    have hle := h.le
    rw [h.nrSector] at hmore
    by_contra hne
    obtain rfl : k = 1 := by omega
    exact hmore rfl
  subst hk
  have hle : (s'.dev.request req).errors.toNat ≤ (s.dev.request req).errors.toNat := by
    rcases herrors with h0 | hsame
    · rw [h0]
      exact Nat.zero_le _
    · rw [hsame]
  refine ⟨Nat.le_refl 1, hkeeps.dev.trans h.dev, ?_, ?_, hle.trans h.counted,
    Nat.lt_of_le_of_lt hle h.errors⟩
  · rw [hsector, h.sector, BitVec.add_assoc]
    rfl
  · rw [hnr, h.nrSector]
    rfl

/-- The errors of a request that is not given up are few, so their count does not wrap. -/
theorem errors_succ {e : U32} (he : e.toNat < MAX_ERRORS.toNat) :
    (e + 1).toNat = e.toNat + 1 ∧
      MAX_ERRORS.sle (e + 1) = decide (MAX_ERRORS.toNat ≤ e.toNat + 1) := by
  have h7 : MAX_ERRORS.toNat = 7 := rfl
  have h1 : (1 : U32).toNat = 1 := rfl
  have hsucc : (e + 1).toNat = e.toNat + 1 := by
    rw [BitVec.toNat_add, h1]
    omega
  refine ⟨hsucc, ?_⟩
  rw [Bool.eq_iff_iff, BitVec.sle_iff_toInt_le, decide_eq_true_iff, BitVec.toInt_eq_toNat_cond,
    BitVec.toInt_eq_toNat_cond, hsucc, h7]
  split_ifs <;> omega

theorem Standing.failed (h : Standing s₀ s block log req k) (hkeeps : Keeps s s' req)
    (hreq : s'.dev.request req =
      { s.dev.request req with errors := (s.dev.request req).errors + 1 })
    (hleft : MAX_ERRORS.sle ((s.dev.request req).errors + 1) = false) :
    Standing s₀ s' block (log ++ [req]) req k := by
  obtain ⟨hsucc, hfull⟩ := errors_succ h.errors
  rw [hfull, decide_eq_false_iff_not] at hleft
  refine ⟨h.le, hkeeps.dev.trans h.dev, ?_, ?_, ?_, ?_⟩
  · rw [hreq, h.sector]
  · rw [hreq, h.nrSector]
  · rw [hreq, hsucc, List.count_append, List.count_singleton_self]
    exact Nat.succ_le_succ h.counted
  · rw [hreq, hsucc]
    omega

theorem Standing.gaveUp (h : Standing s₀ s block log req k)
    (hfull : MAX_ERRORS.sle ((s.dev.request req).errors + 1) = true) :
    Cause D block s₀ (log ++ [req]) req := by
  rw [(errors_succ h.errors).2, decide_eq_true_iff] at hfull
  refine Or.inr ?_
  rw [List.count_append, List.count_singleton_self]
  exact hfull.trans (Nat.succ_le_succ h.counted)

/-- What `do_hd_request` compares, in exact arithmetic. -/
theorem Standing.test_iff (h : Standing s₀ s block log req k) {part : HdStruct}
    (hfit : 2 * (block req).toNat + 2 ≤ part.nrSects.toNat) :
    part.nrSects < (s.dev.request req).sector + 2 ↔
      k = 1 ∧ part.nrSects.toNat = 2 * (block req).toNat + 2 := by
  have hle := h.le
  have hbound := part.nrSects.isLt
  have h2 : (2 : U32).toNat = 2 := rfl
  rw [h.sector, BitVec.lt_def, BitVec.toNat_add, BitVec.toNat_add, BitVec.toNat_mul,
    BitVec.toNat_ofNat, h2]
  omega

theorem Standing.nrSector_iff (h : Standing s₀ s block log req k) :
    (s.dev.request req).nrSector = 1 ↔ k = 1 := by
  have hle := h.le
  rw [h.nrSector]
  obtain rfl | rfl : k = 0 ∨ k = 1 := by omega
  · decide
  · decide

theorem misjudges_eq (hr : s.currReq = some req) : misjudges D block (s, log) =
    (s.repeating && (s.lastHalf D block req && decide (log.count req < MAX_ERRORS.toNat))) := by
  simp only [misjudges, hr, Option.any_some]

/-- A request that is refused is for a block outside its partition, unless it is misjudged. -/
theorem Standing.refused (h : Standing s₀ s block log req k) (hr : s.currReq = some req)
    (hrep : s.repeating = true) (hout : s.passes D req = false)
    (hguard : misjudges D block (s, log) = false) : Cause D block s₀ log req := by
  by_cases hin : D.InPartition (s₀.dev.request req).dev (block req)
  · obtain ⟨drive, part, hfind, hfit⟩ := hin
    rw [← h.dev] at hfind
    rw [passes_eq hfind, Bool.not_eq_false', decide_eq_true_iff, h.test_iff hfit] at hout
    have hlast : s.lastHalf D block req = true := by
      rw [lastHalf, hfind, Option.any_some, decide_eq_true (h.nrSector_iff.mpr hout.1),
        decide_eq_true hout.2]
      rfl
    rw [misjudges_eq hr, hrep, hlast, Bool.true_and, Bool.true_and,
      decide_eq_false_iff_not] at hguard
    exact Or.inr (Nat.le_of_not_lt hguard)
  · exact Or.inl hin

/-- A request that is misjudged is refused without a cause. -/
theorem Standing.misjudged (h : Standing s₀ s block log req k) (hr : s.currReq = some req)
    (hmis : misjudges D block (s, log) = true) (ht : s.tick D a = some s') :
    Retires s s' req false ∧ s.fails D a req = false ∧ ¬ Cause D block s₀ log req := by
  rw [misjudges_eq hr, Bool.and_eq_true, Bool.and_eq_true, decide_eq_true_iff, lastHalf,
    Bool.and_eq_true, decide_eq_true_iff, h.nrSector_iff, Option.any_eq_true] at hmis
  obtain ⟨hrep, ⟨hk, ⟨drive, part⟩, hfind, hlast⟩, hfew⟩ := hmis
  rw [decide_eq_true_iff] at hlast
  have hout : s.passes D req = false := by
    rw [passes_eq hfind, Bool.not_eq_false', decide_eq_true_iff,
      h.test_iff (Nat.le_of_eq hlast.symm)]
    exact ⟨hk, hlast⟩
  have hfails : s.fails D a req = false := by
    rw [fails, if_pos hrep, timesOut, hout]
    rfl
  refine ⟨?_, hfails, not_or.mpr ⟨not_not.mpr ⟨drive, part, ?_, Nat.le_of_eq hlast.symm⟩,
    Nat.not_le_of_lt hfew⟩⟩
  · cases did_tick hr ht with
    | went _ _ _ _ hreturns => exact absurd ((hreturns hrep).2.symm.trans hout) (by decide)
    | moved hno => exact absurd (hrep.symm.trans hno) (by decide)
    | finished hno => exact absurd (hrep.symm.trans hno) (by decide)
    | failed hyes => exact absurd (hyes.symm.trans hfails) (by decide)
    | gaveUp hyes => exact absurd (hyes.symm.trans hfails) (by decide)
    | refused _ _ hret => exact hret
  · rw [← h.dev]
    exact hfind

/-- With an empty queue nothing is retired. -/
theorem tick_none (hr : s.currReq = none) (ht : s.tick D a = some s') :
    s'.currReq = none ∧ s'.retired = s.retired := by
  have hbad : ∀ t : Hd n, t.currReq = none → t.badRwIntr ≠ some s' := by
    intro t ht
    simp [badRwIntr, ht]
  rw [tick] at ht
  split at ht
  · rw [doHdRequest, hr] at ht
    cases ht
    exact ⟨hr, rfl⟩
  · rw [hdInterrupt] at ht
    dsimp only at ht
    split at ht
    · cases ht
      exact ⟨hr, rfl⟩
    · rw [readIntr] at ht
      split at ht
      · exact absurd ht (hbad _ hr)
      · obtain ⟨req, hreq, -⟩ := Option.bind_eq_some_iff.mp ht
        cases hr.symm.trans hreq
    · rw [writeIntr] at ht
      split at ht
      · exact absurd ht (hbad _ hr)
      · obtain ⟨req, hreq, -⟩ := Option.bind_eq_some_iff.mp ht
        cases hr.symm.trans hreq
    · rw [recalIntr] at ht
      split at ht
      · exact absurd ht (hbad _ hr)
      · cases ht
        exact ⟨hr, rfl⟩

theorem queue_nil (hr : s.currReq = none) : s.Queue [] where
  chain := hr ▸ Chain.empty _
  major _ hx := absurd hx List.not_mem_nil
  cmd _ hx := absurd hx List.not_mem_nil
  locked _ hx := absurd hx List.not_mem_nil
  distinct _ hx := absurd hx List.not_mem_nil

theorem failedHead_eq (hr : s.currReq = some req) :
    s.failedHead D a = if s.fails D a req then some req else none := by
  rw [failedHead, hr, Option.filter_some]

/-- One tick of a driver that judges a request by its block. -/
theorem Judged.step (h : Judged D block s₀ s log) (ht : judge D (s, log) a = some (s', log'))
    (hguard : misjudges D block (s, log) = false) : Judged D block s₀ s' log' := by
  obtain ⟨t, hs, heq⟩ := Option.map_eq_some_iff.mp ht
  cases heq
  obtain ⟨l, hqueue, hstands⟩ := h.queue
  cases l with
  | nil =>
    have hr : s.currReq = none := hqueue.chain.head.symm
    obtain ⟨hr', hret⟩ := tick_none hr hs
    refine ⟨⟨[], queue_nil hr', fun r hx => absurd hx List.not_mem_nil⟩, fun r hx => ?_⟩
    exact (h.causes r (hret ▸ hx)).mono _
  | cons req l =>
    obtain ⟨k, hk⟩ := hstands req List.mem_cons_self
    have hne : ∀ x ∈ l, x ≠ req := fun x hx e =>
      (List.nodup_cons.mp hqueue.chain.nodup).1 (e ▸ hx)
    have hothers : (∀ x, x ≠ req → s'.dev.request x = s.dev.request x) → ∀ (x : List Slot),
        ∀ r ∈ l, ∃ j, Standing s₀ s' block (log ++ x) r j := by
      intro hsame x r hmem
      obtain ⟨j, hj⟩ := hstands r (List.mem_cons_of_mem req hmem)
      exact ⟨j, hj.congr (hsame r (hne r hmem)) x⟩
    have hkept : ∀ {j x}, Keeps s s' req → Standing s₀ s' block (log ++ x) req j →
        Judged D block s₀ s' (log ++ x) := by
      intro j x hkeeps hj
      refine ⟨⟨req :: l, hqueue.keeps hkeeps, fun r hmem => ?_⟩, fun r hret => ?_⟩
      · rcases List.mem_cons.mp hmem with rfl | hmem
        · exact ⟨j, hj⟩
        · exact hothers hkeeps.others x r hmem
      · exact (h.causes r (hkeeps.retired ▸ hret)).mono x
    have hretired : ∀ {ok x}, Retires s s' req ok →
        (ok = false → Cause D block s₀ (log ++ x) req) → Judged D block s₀ s' (log ++ x) := by
      intro ok x hret hcause
      refine ⟨⟨l, hqueue.retires hret, hothers hret.others x⟩, fun r hmem => ?_⟩
      rw [hret.retired] at hmem
      rcases List.mem_append.mp hmem with hmem | hmem
      · exact (h.causes r hmem).mono x
      · cases List.mem_singleton.mp hmem
        exact hcause rfl
    rw [failedHead_eq hqueue.head]
    have hno : ∀ c, s.fails D a req = c →
        (if s.fails D a req then some req else none).toList = if c then [req] else [] := by
      intro c hc
      rw [hc]
      cases c <;> rfl
    dsimp only
    cases did_tick hqueue.head hs with
    | went hfails hkeeps hreq _ _ =>
      rw [hno _ hfails]
      exact hkept hkeeps (hk.congr hreq [])
    | moved _ hfails hkeeps hsector hnr hmore herrors _ =>
      rw [hno _ hfails]
      have hj := hk.moved hkeeps hsector hnr hmore herrors
      exact hkept hkeeps (hj.congr rfl [])
    | failed hfails hkeeps hreq hleft _ =>
      rw [hno _ hfails]
      exact hkept hkeeps (hk.failed hkeeps hreq hleft)
    | gaveUp hfails hfull hret =>
      rw [hno _ hfails]
      exact hretired hret fun _ => hk.gaveUp hfull
    | refused hrep hout hret =>
      exact hretired hret fun _ => (hk.refused hqueue.head hrep hout hguard).mono _
    | finished _ hfails hret =>
      rw [hno _ hfails]
      exact hretired hret fun hc => by cases hc

theorem Fresh.judged (h : s.Fresh l block) : Judged D block s s [] := by
  refine ⟨⟨l, h.toQueue, fun r hr => ⟨0, Nat.zero_le 1, rfl, ?_, h.nrSector r hr, ?_, ?_⟩⟩,
    fun r hr => ?_⟩
  · rw [h.sector r hr]
    exact (BitVec.add_zero _).symm
  · rw [h.errors r hr]
    exact Nat.zero_le _
  · rw [h.errors r hr]
    decide
  · rw [h.retired] at hr
    cases hr

theorem judged_run (h₀ : s₀.Fresh l block) {as : List Answers}
    (h : Run (Guarded (fun s _ => misjudges D block s = false) (Steps (judge D))) (s₀, []) as
      (s, log)) : Judged D block s₀ s log := by
  refine h.invariant (P := fun t => Judged D block s₀ t.1 t.2) h₀.judged ?_
  rintro ⟨t, log⟩ a ⟨u, log'⟩ ht hstep
  exact Judged.step ht hstep.2 hstep.1

end judged

/-- As long as no request is misjudged, every request that was given up was for a block
outside its partition or failed often enough, and that is so after the next tick if and only
if it does not misjudge one. -/
theorem gives_up_for_cause_iff {s₀ s : Hd n} {l log : List Slot} {as : List Answers}
    (h₀ : s₀.Fresh l block)
    (h : Run (Guarded (fun s _ => misjudges D block s = false) (Steps (judge D))) (s₀, []) as
      (s, log)) :
    (∀ r, (r, false) ∈ s.retired → Cause D block s₀ log r) ∧
    ∀ a s' log', judge D (s, log) a = some (s', log') →
      ((∀ r, (r, false) ∈ s'.retired → Cause D block s₀ log' r) ↔
        misjudges D block (s, log) = false) := by
  have hjudged := judged_run h₀ h
  refine ⟨hjudged.causes, fun a s' log' ht => ⟨fun hcauses => ?_, fun hguard =>
    (hjudged.step ht hguard).causes⟩⟩
  obtain ⟨t, hs, heq⟩ := Option.map_eq_some_iff.mp ht
  cases heq
  by_contra hmis
  obtain ⟨l, hqueue, hstands⟩ := hjudged.queue
  have hmis := Bool.eq_true_of_not_eq_false hmis
  cases l with
  | nil =>
    have hr : s.currReq = none := hqueue.chain.head.symm
    simp [misjudges, hr] at hmis
  | cons req l =>
    obtain ⟨k, hk⟩ := hstands req List.mem_cons_self
    obtain ⟨hret, hfails, hno⟩ := hk.misjudged hqueue.head hmis hs
    rw [failedHead_eq hqueue.head, hfails] at hcauses
    refine hno ((hcauses req ?_).imp_right fun hle => ?_)
    · rw [hret.retired]
      exact List.mem_append_right _ List.mem_cons_self
    · simpa using hle

end Hd

/-! ## The last block of a partition -/

namespace LastBlock

open SecondSectorFails (start)

/-- A partition that ends with block 5. -/
def drives : Drives :=
  { SecondSectorFails.drives with hd := fun _ => { startSect := 63, nrSects := 12 } }

theorem start_fresh : start.Fresh [31] fun _ => 5 where
  toQueue := DeadDrive.start_queue
  sector r hr := by
    rw [List.mem_singleton.mp hr]
    rfl
  nrSector r hr := by
    rw [List.mem_singleton.mp hr]
    rfl
  errors r hr := by
    rw [List.mem_singleton.mp hr]
    rfl
  retired := rfl

def good : Answers := { DeadDrive.answers with status := 0x50 }

def bad : Answers := { DeadDrive.answers with status := 0x51 }

/-- A reset, a recalibration and the first sector go well, and the second sector does not. -/
def acts : List Answers := List.replicate 6 good ++ [bad, good]

def last : Hd 1 × List Slot := (replay (Hd.judge drives) (start, []) acts).getD (start, [])

theorem run : Run (Steps (Hd.judge drives)) (start, []) acts last :=
  run_replay (by decide +kernel)

/-- Nothing goes well. -/
def dead : Hd 1 × List Slot :=
  (replay (Hd.judge drives) (start, []) (List.replicate 14 DeadDrive.answers)).getD (start, [])

theorem run_dead : Run (Guarded (fun s _ => Hd.misjudges drives (fun _ => 5) s = false)
    (Steps (Hd.judge drives))) (start, []) (List.replicate 14 DeadDrive.answers) dead :=
  run_guarded_replay (by decide +kernel)

end LastBlock

theorem gives_up_for_cause_iff_seven_failures :
    LastBlock.dead.1.retired = [(31, false)] ∧
      Hd.Cause LastBlock.drives (fun _ => 5) SecondSectorFails.start LastBlock.dead.2 31 := by
  have hretired : LastBlock.dead.1.retired = [(31, false)] := by decide +kernel
  have hrun : Run (Guarded (fun s _ => Hd.misjudges LastBlock.drives (fun _ => 5) s = false)
      (Steps (Hd.judge LastBlock.drives))) (SecondSectorFails.start, [])
      (List.replicate 14 DeadDrive.answers) (LastBlock.dead.1, LastBlock.dead.2) :=
    LastBlock.run_dead
  refine ⟨hretired, (Hd.gives_up_for_cause_iff LastBlock.start_fresh hrun).1 31 ?_⟩
  rw [hretired]
  exact List.mem_cons_self

/-- Block 5 is in its partition, and one command for it failed. -/
theorem last_block_given_up :
    SecondSectorFails.start.Fresh [31] (fun _ => 5) ∧
      Run (Steps (Hd.judge LastBlock.drives)) (SecondSectorFails.start, []) LastBlock.acts
        LastBlock.last ∧
      LastBlock.last.1.retired = [(31, false)] ∧ LastBlock.last.2 = [31] ∧
      ¬ Hd.Cause LastBlock.drives (fun _ => 5) SecondSectorFails.start LastBlock.last.2 31 := by
  have hlog : LastBlock.last.2 = [31] := by decide +kernel
  have hdev : (SecondSectorFails.start.dev.request 31).dev = 0x301 := by decide +kernel
  refine ⟨LastBlock.start_fresh, LastBlock.run, by decide +kernel, hlog, ?_⟩
  rintro (hout | hmany)
  · rw [hdev] at hout
    exact hout ⟨0, ⟨63, 12⟩, rfl, by decide⟩
  · rw [hlog] at hmany
    exact absurd hmany (by decide)

end Driver
end CherryOS
