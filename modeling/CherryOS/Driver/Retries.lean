import CherryOS.Driver.Attempts

/-!
# How long a request is retried

A failure is counted against the request, a read that succeeds clears the count, and after a
failure the controller may first be reset and the drive recalibrated.  Each of these things
makes a number smaller that the later ones do not touch: the sectors that are left, then the
failures that are allowed, then the way from a reset to the next command.
-/

namespace CherryOS
namespace Driver

open Kernel (U32)
open Fs (BufferHead Cache)
open Lib

variable {n : Nat}

/-- Sectors that are left after the next one.  `nr_sector` is counted down before it is
tested, so a count of 0 means 2^32. -/
def BlkRequest.remaining (r : BlkRequest n) : Nat := (r.nrSector - 1).toNat

/-- Failures until the request is given up. -/
def BlkRequest.allowed (r : BlkRequest n) : Nat :=
  (MAX_ERRORS.toInt - (r.errors + 1).toInt).toNat

/-- The partitions lie on drives with a geometry that `hd_out` lets pass. -/
def Drives.Checked (D : Drives) : Prop :=
  ∀ minor drive part, D.find minor = some (drive, part) → (D.hdHw drive).Checked

namespace Hd

/-- The measure of a request at the head of the queue. -/
def patience (s : Hd n) (req : Slot) : Nat :=
  ((s.dev.request req).remaining * 2 ^ 33 + (s.dev.request req).allowed) * 8 + s.stage

/-- The requests that `ll_rw_block` has queued, the one at the head first. -/
structure Queue (s : Hd n) (l : List Slot) : Prop where
  chain : Chain (fun r => (s.dev.request r).next) s.currReq l
  major : ∀ r ∈ l, MAJOR (s.dev.request r).dev = .ofNat 32 BLK_DEV_NUM_HD.val
  cmd : ∀ r ∈ l, (s.dev.request r).cmd = BLK_READ ∨ (s.dev.request r).cmd = BLK_WRITE
  locked : ∀ r ∈ l, ∀ b, (s.dev.request r).bh = some b → (s.cache.bh b).bLock ≠ 0
  distinct : ∀ r ∈ l, ∀ x ∈ l, ∀ b,
    (s.dev.request r).bh = some b → (s.dev.request x).bh = some b → r = x

/-- A turn of the loop in `do_hd_request`. -/
def turn (D : Drives) (s : Hd n) (a : Answers) : Option (Hd n) :=
  if s.repeating then s.doHdRequest D a.ready a.polls else none

/-- Turns that `do_hd_request` can take before it returns. -/
def turnsLeft (s : Hd n) (l : List Slot) : Nat :=
  (l.map fun r => (s.dev.request r).allowed + 1).sum

/-! ## The measure -/

section measure

variable {D : Drives} {s s' : Hd n} {a : Answers} {req : Slot} {r q : BlkRequest n}

theorem stage_lt (s : Hd n) : s.stage < 8 := by
  simp only [stage]
  split_ifs <;> first | omega | (split <;> omega)

theorem allowed_lt (r : BlkRequest n) : r.allowed < 2 ^ 33 := by
  have h7 : MAX_ERRORS.toInt = 7 := rfl
  have hle := BitVec.le_toInt (r.errors + 1)
  rw [BlkRequest.allowed, h7]
  omega

theorem toInt_succ {x : U32} (h : x.toInt < 7) : (x + 1).toInt = x.toInt + 1 := by
  have hbound := x.isLt
  have h1 : (1 : U32).toNat = 1 := rfl
  rw [BitVec.toInt_eq_toNat_cond] at h
  rw [BitVec.toInt_eq_toNat_cond, BitVec.toInt_eq_toNat_cond, BitVec.toNat_add, h1]
  split_ifs at * <;> omega

/-- A failure that is not the last. -/
theorem allowed_failed (hq : q.errors = r.errors + 1)
    (hleft : MAX_ERRORS.sle (r.errors + 1) = false) : q.allowed < r.allowed := by
  have h7 : MAX_ERRORS.toInt = 7 := rfl
  have hlt : (r.errors + 1).toInt < 7 := by
    by_contra hge
    rw [BitVec.sle_iff_toInt_le.mpr (by rw [h7]; omega)] at hleft
    cases hleft
  rw [BlkRequest.allowed, BlkRequest.allowed, hq, h7, toInt_succ hlt]
  omega

theorem remaining_moved (hq : q.nrSector = r.nrSector - 1) (hmore : r.nrSector - 1 ≠ 0) :
    q.remaining < r.remaining := by
  have hne : (r.nrSector - 1).toNat ≠ 0 := fun h0 => hmore (BitVec.eq_of_toNat_eq h0)
  have h1 : (1 : U32).toNat = 1 := rfl
  have hbound := (r.nrSector - 1).isLt
  rw [BlkRequest.remaining, BlkRequest.remaining, hq, BitVec.toNat_sub (r.nrSector - 1), h1]
  omega

/-- As long as the request stays at the head, every tick lowers the measure. -/
theorem Did.patience_lt (h : Did D a req s s') (hactive : s.Active)
    (hsame : s'.retired = s.retired) :
    Keeps s s' req ∧ s'.Active ∧ s'.patience req < s.patience req := by
  have hstage := s'.stage_lt
  have hallowed := allowed_lt (s'.dev.request req)
  have hkept : ∀ {ok}, ¬ Retires s s' req ok := fun hret => by
    have hgrown := hret.retired
    rw [hsame] at hgrown
    simp at hgrown
  cases h with
  | went hfails hkeeps hreq hstages =>
    obtain ⟨hact, hlt⟩ := hstages hactive
    refine ⟨hkeeps, hact, ?_⟩
    rw [patience, patience, hreq]
    omega
  | moved hrest hfails hkeeps hsector hnr hmore herrors hact =>
    have hlt := remaining_moved hnr hmore
    refine ⟨hkeeps, hact, ?_⟩
    rw [patience, patience]
    omega
  | failed hfails hkeeps hreq hleft hrep =>
    have hlt := allowed_failed (r := s.dev.request req) (q := s'.dev.request req)
      (by rw [hreq]) hleft
    have hsect : (s'.dev.request req).remaining = (s.dev.request req).remaining := by
      rw [BlkRequest.remaining, hreq, BlkRequest.remaining]
    refine ⟨hkeeps, Or.inl hrep, ?_⟩
    rw [patience, patience, hsect]
    omega
  | gaveUp hfails hfull hret => exact absurd hret hkept
  | refused hrep hout hret => exact absurd hret hkept
  | finished hrest hfails hret => exact absurd hret hkept

end measure

/-! ## The queue -/

section queue

variable {D : Drives} {s s' : Hd n} {a : Answers} {req : Slot} {l : List Slot}

theorem Queue.head (h : s.Queue (req :: l)) : s.currReq = some req := h.chain.head.symm

theorem Queue.keeps (h : s.Queue (req :: l)) (hk : Keeps s s' req) : s'.Queue (req :: l) := by
  -- the fields that the invariant speaks of
  have hsame : ∀ x, (s'.dev.request x).dev = (s.dev.request x).dev ∧
      (s'.dev.request x).cmd = (s.dev.request x).cmd ∧
      (s'.dev.request x).bh = (s.dev.request x).bh ∧
      (s'.dev.request x).next = (s.dev.request x).next := by
    intro x
    by_cases hx : x = req
    · rw [hx]
      exact ⟨hk.dev, hk.cmd, hk.bh, hk.next⟩
    · rw [hk.others x hx]
      exact ⟨rfl, rfl, rfl, rfl⟩
  refine ⟨?_, fun x hx => ?_, fun x hx => ?_, fun x hx b hb => ?_, fun x hx y hy b hxb hyb => ?_⟩
  · rw [hk.currReq]
    exact h.chain.congr fun x _ => (hsame x).2.2.2
  · rw [(hsame x).1]
    exact h.major x hx
  · rw [(hsame x).2.1]
    exact h.cmd x hx
  · rw [(hsame x).2.2.1] at hb
    rw [hk.cache]
    exact h.locked x hx b hb
  · rw [(hsame x).2.2.1] at hxb
    rw [(hsame y).2.2.1] at hyb
    exact h.distinct x hx y hy b hxb hyb

/-- The buffer that is unlocked is that of no other request. -/
theorem Queue.retires {ok : Bool} (h : s.Queue (req :: l)) (hr : Retires s s' req ok) :
    s'.Queue l := by
  have hne : ∀ x ∈ l, x ≠ req := fun x hx e =>
    (List.nodup_cons.mp h.chain.nodup).1 (e ▸ hx)
  have hmem : ∀ {x}, x ∈ l → x ∈ req :: l := List.mem_cons_of_mem req
  refine ⟨?_, fun x hx => ?_, fun x hx => ?_, fun x hx b hb => ?_, fun x hx y hy b hxb hyb => ?_⟩
  · rw [hr.currReq]
    exact h.chain.tail.congr fun x hx => by rw [hr.others x (hne x hx)]
  · rw [hr.others x (hne x hx)]
    exact h.major x (hmem hx)
  · rw [hr.others x (hne x hx)]
    exact h.cmd x (hmem hx)
  · rw [hr.others x (hne x hx)] at hb
    rw [hr.cache, Cache.store_bh, if_neg]
    · exact h.locked x (hmem hx) b hb
    · intro hreq
      exact hne x hx (h.distinct x (hmem hx) req List.mem_cons_self b hb hreq)
  · rw [hr.others x (hne x hx)] at hxb
    rw [hr.others y (hne y hy)] at hyb
    exact h.distinct x (hmem hx) y (hmem hy) b hxb hyb

/-! No handler panics over a request. -/

theorem recalIntr_isSome (hr : s.currReq = some req) (status : BitVec 8) :
    ∃ s', s.recalIntr status = some s' := by
  rw [recalIntr]
  split
  · exact badRwIntr_isSome hr
  · exact ⟨s, rfl⟩

theorem endRequest_isSome (hr : s.currReq = some req) (f : BlkRequest n → BlkRequest n) :
    ∃ s', (s.setReq req f).endRequest true = some s' :=
  ⟨_, endRequest_head (s := s.setReq req f) hr true⟩

theorem readIntr_isSome (hr : s.currReq = some req) (status : BitVec 8) :
    ∃ s', s.readIntr status = some s' := by
  rw [readIntr]
  split
  · exact badRwIntr_isSome hr
  rw [hr, Option.bind_some]
  dsimp only
  split
  · exact ⟨_, rfl⟩
  · have hmem : ({ s with mem := portRead s.mem (s.dev.request req).buffer s.ctl.data } :
        Hd n).currReq = some req := hr
    exact endRequest_isSome hmem _

theorem writeIntr_isSome (hr : s.currReq = some req) (status : BitVec 8) :
    ∃ s', s.writeIntr status = some s' := by
  rw [writeIntr]
  split
  · exact badRwIntr_isSome hr
  rw [hr, Option.bind_some]
  dsimp only
  split
  · exact ⟨_, rfl⟩
  · exact endRequest_isSome hr _

theorem doHdRequest_isSome (hD : D.Checked) (h : s.Queue (req :: l)) {ready : List (BitVec 8)}
    (polls : List (BitVec 8)) (hready : controllerReady ready = true) :
    ∃ s', s.doHdRequest D ready polls = some s' := by
  have hlocked : ((s.dev.request req).bh.any fun b => (s.cache.bh b).bLock = 0) = false := by
    cases hb : (s.dev.request req).bh with
    | none => rfl
    | some b => simpa using h.locked req List.mem_cons_self b hb
  have hend := endRequest_head h.head false
  rw [doHdRequest, h.head]
  dsimp only
  rw [if_neg (not_not.mpr (h.major req List.mem_cons_self)), if_neg (by rw [hlocked]; decide)]
  split
  · exact ⟨_, hend⟩
  · rename_i drive part hfind
    split
    · exact ⟨_, hend⟩
    · exact Option.isSome_iff_exists.mp (issue_isSome polls (hD _ _ _ hfind) hready h.head
        (h.cmd req List.mem_cons_self) _)

/-- Whatever the controller does, the driver can go on. -/
theorem tick_isSome (hD : D.Checked) (h : s.Queue (req :: l))
    (hready : controllerReady a.ready = true) : ∃ s', s.tick D a = some s' := by
  rw [tick]
  split
  · exact doHdRequest_isSome hD h a.polls hready
  · have hhead : ({ s with ctl := a.ctl, disks := a.disks, doHd := none, repeating := true } :
        Hd n).currReq = some req := h.head
    rw [hdInterrupt]
    dsimp only
    split
    · exact ⟨_, rfl⟩
    · exact readIntr_isSome hhead a.status
    · exact writeIntr_isSome hhead a.status
    · exact recalIntr_isSome hhead a.status

/-- A request is kept and its measure gets smaller, or it is retired. -/
theorem Queue.patience_step (hD : D.Checked) (h : s.Queue (req :: l)) (hactive : s.Active)
    (hready : controllerReady a.ready = true) : ∃ s', s.tick D a = some s' ∧
      ((∃ ok, s'.retired = s.retired ++ [(req, ok)]) ∨
        s'.retired = s.retired ∧ s'.Queue (req :: l) ∧ s'.Active ∧
          s'.patience req < s.patience req) := by
  obtain ⟨s', hs'⟩ := tick_isSome hD h hready
  have hdid := did_tick h.head hs'
  have hkept : s'.retired = s.retired → s'.retired = s.retired ∧ s'.Queue (req :: l) ∧
      s'.Active ∧ s'.patience req < s.patience req := fun hsame =>
    have hlt := hdid.patience_lt hactive hsame
    ⟨hsame, h.keeps hlt.1, hlt.2⟩
  refine ⟨s', hs', ?_⟩
  cases hdid with
  | went _ hkeeps _ _ => exact Or.inr (hkept hkeeps.retired)
  | moved _ _ hkeeps _ _ _ _ _ => exact Or.inr (hkept hkeeps.retired)
  | failed _ hkeeps _ _ _ => exact Or.inr (hkept hkeeps.retired)
  | gaveUp _ _ hret => exact Or.inl ⟨false, hret.retired⟩
  | refused _ _ hret => exact Or.inl ⟨false, hret.retired⟩
  | finished _ _ hret => exact Or.inl ⟨true, hret.retired⟩

/-- A turn of `do_hd_request` is the last, or it gets a request off the queue or uses up one
of the failures of the request at the head. -/
theorem Queue.turn_step (hD : D.Checked) (h : s.Queue l) (hrep : s.repeating = true)
    (hready : controllerReady a.ready = true) : ∃ s', s.turn D a = some s' ∧
      (s'.repeating = false ∨ s'.repeating = true ∧ ∃ l', s'.Queue l' ∧
        s'.turnsLeft l' < s.turnsLeft l) := by
  rw [turn, if_pos hrep]
  cases l with
  | nil =>
    have hnone : s.currReq = none := h.chain.head.symm
    rw [doHdRequest, hnone]
    exact ⟨_, rfl, Or.inl rfl⟩
  | cons req l =>
    obtain ⟨s', hs'⟩ := doHdRequest_isSome hD h a.polls hready
    have hne : ∀ x ∈ l, x ≠ req := fun x hx e =>
      (List.nodup_cons.mp h.chain.nodup).1 (e ▸ hx)
    have hrest : (∀ x, x ≠ req → s'.dev.request x = s.dev.request x) →
        s'.turnsLeft l = s.turnsLeft l := fun hothers =>
      congrArg List.sum (List.map_congr_left fun x hx => by rw [hothers x (hne x hx)])
    have hcons : ∀ t : Hd n, t.turnsLeft (req :: l) =
        (t.dev.request req).allowed + 1 + t.turnsLeft l := fun t => List.sum_cons
    have hretires : ∀ {ok}, Retires s s' req ok → ∃ l', s'.Queue l' ∧
        s'.turnsLeft l' < s.turnsLeft (req :: l) := by
      intro ok hret
      refine ⟨l, h.retires hret, ?_⟩
      rw [hrest hret.others, hcons]
      omega
    refine ⟨s', hs', ?_⟩
    cases did_turn h.head hrep hs' with
    | went _ _ _ _ hreturns => exact Or.inl (hreturns hrep).1
    | moved hno => exact absurd (hrep.symm.trans hno) (by decide)
    | finished hno => exact absurd (hrep.symm.trans hno) (by decide)
    | failed _ hkeeps hreq hleft hrep' =>
      have hlt := allowed_failed (r := s.dev.request req) (q := s'.dev.request req)
        (by rw [hreq]) hleft
      refine Or.inr ⟨hrep', req :: l, h.keeps hkeeps, ?_⟩
      rw [hcons, hcons, hrest hkeeps.others]
      omega
    | gaveUp _ _ hret => exact Or.inr ⟨hret.repeating, hretires hret⟩
    | refused _ _ hret => exact Or.inr ⟨hret.repeating, hretires hret⟩

end queue

/-- Every tick that leaves a request at the head lowers its measure, so whatever the
controller does the request is retired after that many ticks at most, and `do_hd_request`
returns. -/
theorem gives_up_eventually {D : Drives} (hD : D.Checked) {s : Hd n} {req : Slot}
    {l : List Slot} (hq : s.Queue (req :: l)) (hactive : s.Active) :
    (∀ (t t' : Hd n) (a : Answers), t.currReq = some req → t.Active → t.tick D a = some t' →
      t'.retired = t.retired →
      t'.currReq = some req ∧ t'.Active ∧ t'.patience req < t.patience req) ∧
    (∀ answers : Nat → Answers, (∀ i, controllerReady (answers i).ready = true) →
      ∃ k ≤ s.patience req, ∃ s' ok,
        replay (tick D) s ((List.range (k + 1)).map answers) = some s' ∧
          s'.retired = s.retired ++ [(req, ok)]) ∧
    (s.repeating = true → ∀ answers : Nat → Answers,
      (∀ i, controllerReady (answers i).ready = true) →
      ∃ k ≤ s.turnsLeft (req :: l), ∃ s',
        replay (turn D) s ((List.range (k + 1)).map answers) = some s' ∧
          s'.repeating = false) := by
  refine ⟨fun t t' a hr hact ht hsame => ?_, fun answers hanswers => ?_,
    fun hrep answers hanswers => ?_⟩
  · obtain ⟨hkeeps, hact', hlt⟩ := (did_tick hr ht).patience_lt hact hsame
    exact ⟨hkeeps.currReq.trans hr, hact', hlt⟩
  · let I (m : Nat) (t : Hd n) : Prop :=
      t.patience req = m ∧ t.retired = s.retired ∧ t.Queue (req :: l) ∧ t.Active
    let goal (t : Hd n) : Prop := ∃ ok, t.retired = s.retired ++ [(req, ok)]
    have hstep : ∀ m t a, I m t → controllerReady a.ready = true →
        ∃ t', tick D t a = some t' ∧ (goal t' ∨ ∃ k < m, I k t') := by
      rintro m t a ⟨rfl, hsame, hqueue, hact⟩ hready
      obtain ⟨t', ht', ⟨ok, hret⟩ | ⟨hkept, hqueue', hact', hlt⟩⟩ :=
        hqueue.patience_step hD hact hready
      · exact ⟨t', ht', Or.inl ⟨ok, hsame ▸ hret⟩⟩
      · exact ⟨t', ht', Or.inr ⟨_, hlt, rfl, hkept.trans hsame, hqueue', hact'⟩⟩
    have hstart : I (s.patience req) s := ⟨rfl, rfl, hq, hactive⟩
    obtain ⟨k, hk, s', hs', ok, hret⟩ := reaches_within hstep hstart hanswers
    exact ⟨k, hk, s', ok, hs', hret⟩
  · let I (m : Nat) (t : Hd n) : Prop :=
      t.repeating = true ∧ ∃ l', t.Queue l' ∧ t.turnsLeft l' = m
    have hstep : ∀ m t a, I m t → controllerReady a.ready = true →
        ∃ t', turn D t a = some t' ∧ (t'.repeating = false ∨ ∃ k < m, I k t') := by
      rintro m t a ⟨hturn, l', hqueue, rfl⟩ hready
      obtain ⟨t', ht', hdone | ⟨hturn', l'', hqueue', hlt⟩⟩ := hqueue.turn_step hD hturn hready
      · exact ⟨t', ht', Or.inl hdone⟩
      · exact ⟨t', ht', Or.inr ⟨_, hlt, hturn', l'', hqueue', rfl⟩⟩
    have hstart : I (s.turnsLeft (req :: l)) s := ⟨hrep, _, hq, rfl⟩
    exact reaches_within hstep hstart hanswers

end Hd

/-! ## A drive that does nothing right -/

namespace DeadDrive

open SecondSectorFails (drives start)

def answers : Answers :=
  { ready := [0x40], polls := [], status := 0xFF, ctl := start.ctl, disks := start.disks }

theorem drives_checked : drives.Checked :=
  fun minor drive part h => (Alias.drives_partitioned minor drive part h).1.checked

/-- Block 5 is to be read. -/
theorem start_queue : start.Queue [31] where
  chain := Chain.single rfl
  major r hr := by
    rw [List.mem_singleton.mp hr]
    decide
  cmd r hr := by
    rw [List.mem_singleton.mp hr]
    exact Or.inl rfl
  locked r hr b _ := by
    rw [Subsingleton.elim b 0]
    decide
  distinct r hr x hx b _ _ := by
    rw [List.mem_singleton.mp hr, List.mem_singleton.mp hx]

end DeadDrive

theorem gives_up_eventually_deadDrive :
    ∃ k ≤ SecondSectorFails.start.patience 31, ∃ s' ok,
      replay (Hd.tick SecondSectorFails.drives) SecondSectorFails.start
        ((List.range (k + 1)).map fun _ => DeadDrive.answers) = some s' ∧
      s'.retired = [(31, ok)] :=
  (Hd.gives_up_eventually DeadDrive.drives_checked DeadDrive.start_queue (Or.inl rfl)).2.1
    (fun _ => DeadDrive.answers) fun _ => rfl

end Driver
end CherryOS
