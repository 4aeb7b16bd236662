import CherryOS.Driver.Transfer

/-!
# Partitions

`make_request` doubles the block number and `do_hd_request` adds 2 and compares, all in 32
bits.  A block that fits its partition passes the test, and the command then names its two
sectors.  A block number from 2^31 - 1 on wraps, and what it wraps to may pass in its place.
-/

namespace CherryOS
namespace Driver

open Kernel (U32)
open Fs (BufferHead Cache)
open Lib

variable {n : Nat}

/-- The partitions lie on drives the controller can address. -/
def Drives.Partitioned (D : Drives) : Prop :=
  ∀ minor drive part, D.find minor = some (drive, part) →
    (D.hdHw drive).Geometry ∧
      part.startSect.toNat + part.nrSects.toNat ≤ (D.hdHw drive).size

/-- Block `b` of the device is a block of its partition, in exact arithmetic. -/
def Drives.InPartition (D : Drives) (dev b : U32) : Prop :=
  ∃ drive part, D.find ((MINOR dev).setWidth 8) = some (drive, part) ∧
    2 * b.toNat + 2 ≤ part.nrSects.toNat

/-- The request that `make_request` builds for buffer `b` is at the head of the queue.  It may
have been tried before. -/
structure Hd.Built (s : Hd n) (req : Slot) (rw : U32) (b : Fin n) : Prop where
  head : s.currReq = some req
  rw_cases : rw = BLK_READ ∨ rw = BLK_WRITE
  built : ∃ errors next, s.dev.request req =
    { (s.dev.fill req rw b (s.cache.bh b)).request req with errors := errors, next := next }
  major : MAJOR ((s.cache.bh b).bDev.zeroExtend 32) = BitVec.ofNat 32 BLK_DEV_NUM_HD.val
  locked : (s.cache.bh b).bLock ≠ 0

/-- The request is failed and the controller is told nothing. -/
structure Hd.Refused (s s' : Hd n) (req : Slot) : Prop where
  ctl : s'.ctl = s.ctl
  doHd : s'.doHd = s.doHd
  retired : s'.retired = s.retired ++ [(req, false)]

/-- A command is given: one that moves nothing and leaves the request for another turn, or the
one for the two sectors from `start`. -/
inductive Hd.Commanded (s s' : Hd n) (rw : U32) (drive : Drive) (start : Nat) : Prop
  | recalibrating (hjob : s'.ctl.job = .noData) (hdo : s'.doHd = some .recalIntr)
      (hdev : s'.dev = s.dev) (hcache : s'.cache = s.cache)
  | read (hrw : rw = BLK_READ) (hjob : s'.ctl.job = .read drive start 2)
  | write (data : Option Sector) (hrw : rw = BLK_WRITE)
      (hjob : s'.ctl.job = .write drive start 2 data)

namespace Hd

variable {s s' : Hd n} {req : Slot} {rw : U32} {b : Fin n} {D : Drives}

theorem fill_self (d : BlkDev n) (r : Slot) (rw : U32) (b : Fin n) (h : BufferHead n) :
    (d.fill r rw b h).request r =
      { dev := h.bDev.zeroExtend 32, cmd := rw, errors := 0, sector := h.bBlocknr * 2
        nrSector := 2, bh := some b, buffer := h.bData, next := none } := by
  rw [BlkDev.fill, BlkDev.set_request, if_pos rfl]

theorem Built.fields (h : s.Built req rw b) :
    (s.dev.request req).dev = (s.cache.bh b).bDev.zeroExtend 32 ∧
      (s.dev.request req).cmd = rw ∧
      (s.dev.request req).sector = (s.cache.bh b).bBlocknr * 2 ∧
      (s.dev.request req).nrSector = 2 ∧ (s.dev.request req).bh = some b := by
  obtain ⟨errors, next, hreq⟩ := h.built
  rw [hreq, fill_self]
  exact ⟨rfl, rfl, rfl, rfl, rfl⟩

/-- A turn on a request for a device that is not there. -/
theorem Built.turn_none (h : s.Built req rw b) (ready polls : List (BitVec 8))
    (hfind : D.find ((MINOR ((s.cache.bh b).bDev.zeroExtend 32)).setWidth 8) = none) :
    s.doHdRequest D ready polls = s.endRequest false := by
  obtain ⟨hdev, -, -, -, hbh⟩ := h.fields
  simp only [doHdRequest, h.head, hdev, hbh, Option.any_some, h.locked, decide_false,
    Bool.false_eq_true, if_false, h.major, ne_eq, not_true_eq_false, hfind]

/-- A turn on a request for a partition: only the test of its bounds decides. -/
theorem Built.turn_some (h : s.Built req rw b) (ready polls : List (BitVec 8))
    {dev : Drive} {part : HdStruct}
    (hfind : D.find ((MINOR ((s.cache.bh b).bDev.zeroExtend 32)).setWidth 8) = some (dev, part)) :
    s.doHdRequest D ready polls =
      if part.nrSects < (s.cache.bh b).bBlocknr * 2 + 2 then s.endRequest false
      else s.issue D ready polls req dev ((s.cache.bh b).bBlocknr * 2 + part.startSect) := by
  obtain ⟨hdev, -, hsector, -, hbh⟩ := h.fields
  simp only [doHdRequest, h.head, hdev, hsector, hbh, Option.any_some, h.locked, decide_false,
    Bool.false_eq_true, if_false, h.major, ne_eq, not_true_eq_false, hfind]

theorem refused_of_endRequest (hreq : s.currReq = some req) (h : s.endRequest false = some s') :
    Refused s s' req := by
  have hret := (endRequest_eq hreq h).2.2
  rw [endRequest, hreq, Option.bind_some] at h
  obtain ⟨⟨d, c⟩, _, rfl⟩ := Option.map_eq_some_iff.mp h
  exact ⟨rfl, rfl, hret⟩

/-- Nothing that is done after a failed wait for data reaches the controller. -/
theorem badRwIntr_ctl (h : s.badRwIntr = some s') : s'.ctl = s.ctl := by
  obtain ⟨req, hreq, -⟩ := Option.bind_eq_some_iff.mp h
  simp only [badRwIntr, hreq, Option.bind_eq_bind, Option.bind_some] at h
  split at h
  · obtain ⟨t, ht, h⟩ := Option.bind_eq_some_iff.mp h
    cases h
    exact (refused_of_endRequest (s := s.setReq req fun r => { r with errors := r.errors + 1 })
      hreq ht).ctl
  · cases h
    rfl

/-- The interrupt at the end of a recalibration leaves the request for the next turn, unless
the request is given up. -/
theorem Built.recalIntr {status : BitVec 8} (h : s.Built req rw b)
    (hs : s.recalIntr status = some s') :
    (s'.Built req rw b ∧ s'.cache = s.cache ∧ s'.repeating = s.repeating) ∨
      s'.retired = s.retired ++ [(req, false)] := by
  rw [Hd.recalIntr] at hs
  split at hs
  · rcases badRwIntr_cases h.head hs with ⟨e, rfl⟩ | ⟨-, -, hret⟩
    · obtain ⟨errors, next, hreq⟩ := h.built
      refine Or.inl ⟨⟨h.head, h.rw_cases, ⟨errors + 1, next, ?_⟩, h.major, h.locked⟩, rfl, rfl⟩
      show (s.setReq req fun r => { r with errors := r.errors + 1 }).dev.request req = _
      rw [setReq_self, hreq, fill_self, fill_self]
      rfl
    · exact Or.inr hret
  · cases hs
    exact Or.inl ⟨h, rfl, rfl⟩

/-- A command for a block of the partition names its sectors. -/
theorem Built.issue (h : s.Built req rw b) {ready polls : List (BitVec 8)} {drive : Drive}
    {part : HdStruct}
    (hin : D.Inside ((s.cache.bh b).bDev.zeroExtend 32) (s.cache.bh b).bBlocknr drive part)
    (hi : s.issue D ready polls req drive
      ((s.cache.bh b).bBlocknr * 2 + part.startSect) = some s') :
    Commanded s s' rw drive (part.sectorOf (s.cache.bh b).bBlocknr) := by
  obtain ⟨-, hcmd, -, hcount, -⟩ := h.fields
  obtain ⟨habs, hsize⟩ := hin.absBlock (k := 0) (Nat.zero_le _)
  have hzero : (s.cache.bh b).bBlocknr * 2 + BitVec.ofNat 32 0 + part.startSect =
      (s.cache.bh b).bBlocknr * 2 + part.startSect := congrArg (· + _) (BitVec.add_zero _)
  rw [hzero, Nat.add_zero] at habs
  rw [Nat.add_zero, ← habs] at hsize
  obtain ⟨hread, hwrite⟩ := command_moves (c := s.ctl) hin.geometry hsize
    (show (s.dev.request req).nrSector.toNat ≤ 255 by rw [hcount]; decide)
  rw [habs, show (s.dev.request req).nrSector.toNat = 2 by rw [hcount]; rfl] at hread hwrite
  rw [Hd.issue] at hi
  split at hi
  · cases hi
  dsimp only at hi
  split at hi
  · have hs' := hdOut_eq hi
    exact .recalibrating (by rw [hs']; exact command_idle (by decide)) (by rw [hs'])
      (by rw [hs']; rfl) (by rw [hs']; rfl)
  split at hi
  · have hs' := hdOut_eq hi
    exact .recalibrating (by rw [hs']; exact command_idle (by decide)) (by rw [hs'])
      (by rw [hs']) (by rw [hs'])
  split at hi
  · rename_i hw
    obtain ⟨t, ht, hi⟩ := Option.bind_eq_some_iff.mp hi
    have ht' := hdOut_eq ht
    have hjob : t.ctl.job = .write drive (part.sectorOf (s.cache.bh b).bBlocknr) 2 none := by
      rw [ht']
      exact hwrite
    split at hi
    · cases hi
      exact .write _ (hcmd ▸ hw) (give_job hjob)
    · exact .write none (hcmd ▸ hw) (by rw [badRwIntr_ctl hi, hjob])
  split at hi
  · rename_i hr
    refine .read (hcmd ▸ hr) ?_
    rw [hdOut_eq hi]
    exact hread
  · cases hi

/-! ## A command is given to a drive that is ready -/

theorem chs_head_le {hw : HdHwInfo} (hg : hw.Checked) (absBlock : U32) :
    ¬ 15 < (chs hw absBlock).head := by
  have hlt := Nat.mod_lt (absBlock.toNat / hw.sect.toNat) hg.head_pos
  have hle := hg.head_le
  have h15 : (15 : U32).toNat = 15 := rfl
  rw [BitVec.lt_def, (chs_digits hw absBlock).1]
  omega

theorem hdOut_ready {ready : List (BitVec 8)} {drive : Drive} {nsect sect head cyl cmd : U32}
    {f : Handler} (hready : controllerReady ready = true) (hhead : ¬ 15 < head) :
    s.hdOut D ready drive nsect sect head cyl cmd f =
      some { s with doHd := some f, ctl := D.command s.ctl drive nsect sect head cyl cmd } := by
  rw [hdOut, if_neg]
  rintro (hc | hc)
  · exact hhead hc
  · rw [hready] at hc
    cases hc

/-- The driver divides by neither. -/
theorem not_zero_of_checked {hw : HdHwInfo} (hg : hw.Checked) :
    ¬ (hw.sect = 0 ∨ hw.head = 0) := by
  rintro (hc | hc)
  · have hpos := hg.sect_pos
    rw [hc] at hpos
    exact absurd hpos (by decide)
  · have hpos := hg.head_pos
    rw [hc] at hpos
    exact absurd hpos (by decide)

/-- The last head of a drive, as `reset_hd` names it. -/
theorem last_head_le {hw : HdHwInfo} (hg : hw.Checked) : ¬ 15 < hw.head - 1 := by
  have hle := hg.head_le
  have hpos := hg.head_pos
  have h15 : (15 : U32).toNat = 15 := rfl
  have h1 : (1 : U32).toNat = 1 := rfl
  rw [BitVec.lt_def, BitVec.toNat_sub]
  omega

theorem Built.issue_ready (h : s.Built req rw b) {drive : Drive}
    (hg : (D.hdHw drive).Checked) (absBlock : U32) :
    ∃ s', s.issue D [0x40] [DRQ_STAT] req drive absBlock = some s' ∧
      s'.retired = s.retired := by
  obtain ⟨-, hcmd, -, -, -⟩ := h.fields
  have hready : controllerReady [0x40] = true := rfl
  rw [Hd.issue, if_neg (not_zero_of_checked hg)]
  dsimp only
  split
  · rw [resetHd, hdOut_ready hready (last_head_le hg)]
    exact ⟨_, rfl, rfl⟩
  split
  · rw [hdOut_ready hready (by decide)]
    exact ⟨_, rfl, rfl⟩
  rw [hcmd]
  rcases h.rw_cases with rfl | rfl
  · rw [if_neg (by decide), if_pos rfl, hdOut_ready hready (chs_head_le hg _)]
    exact ⟨_, rfl, rfl⟩
  · rw [if_pos rfl, hdOut_ready hready (chs_head_le hg _)]
    simp only [Option.bind_eq_bind, Option.bind_some]
    exact ⟨_, rfl, rfl⟩

/-! ## The result -/

/-- The block number does not wrap, or what it wraps to is refused. -/
def NoAlias (D : Drives) (dev b : U32) : Prop :=
  ∀ drive part, D.find ((MINOR dev).setWidth 8) = some (drive, part) →
    b.toNat < 2 ^ 31 - 1 ∨ part.nrSects.toNat < (2 * b.toNat + 2) % 2 ^ 32

theorem test_toNat (x y : U32) :
    y < x * 2 + 2 ↔ y.toNat < (2 * x.toNat + 2) % 2 ^ 32 := by
  have h2 : (2 : U32).toNat = 2 := rfl
  rw [BitVec.lt_def, BitVec.toNat_add, BitVec.toNat_mul, h2]
  omega

/-- A turn on a request whose block number has no alias. -/
theorem Built.turn (hD : D.Partitioned) (h : s.Built req rw b)
    (hno : NoAlias D ((s.cache.bh b).bDev.zeroExtend 32) (s.cache.bh b).bBlocknr)
    {ready polls : List (BitVec 8)} (hs : s.doHdRequest D ready polls = some s') :
    (¬ D.InPartition ((s.cache.bh b).bDev.zeroExtend 32) (s.cache.bh b).bBlocknr →
      Refused s s' req) ∧
    ∀ drive part,
      D.find ((MINOR ((s.cache.bh b).bDev.zeroExtend 32)).setWidth 8) = some (drive, part) →
      2 * (s.cache.bh b).bBlocknr.toNat + 2 ≤ part.nrSects.toNat →
      Commanded s s' rw drive (part.sectorOf (s.cache.bh b).bBlocknr) := by
  cases hfind : D.find ((MINOR ((s.cache.bh b).bDev.zeroExtend 32)).setWidth 8) with
  | none =>
    rw [h.turn_none ready polls hfind] at hs
    refine ⟨fun _ => refused_of_endRequest h.head hs, fun drive part hc => ?_⟩
    cases hc
  | some found =>
    obtain ⟨drive, part⟩ := found
    rw [h.turn_some ready polls hfind] at hs
    split at hs
    · rename_i hfail
      have hlt := (test_toNat _ _).mp hfail
      refine ⟨fun _ => refused_of_endRequest h.head hs, fun drive' part' hc hle => ?_⟩
      cases hc
      have hbound := part.nrSects.isLt
      omega
    · rename_i hpass
      have hle : ¬ part.nrSects.toNat < (2 * (s.cache.bh b).bBlocknr.toNat + 2) % 2 ^ 32 :=
        fun hlt => hpass ((test_toNat _ _).mpr hlt)
      have hsmall := (hno drive part hfind).resolve_right hle
      have hfit : 2 * (s.cache.bh b).bBlocknr.toNat + 2 ≤ part.nrSects.toNat := by omega
      obtain ⟨hg, hsize⟩ := hD _ _ _ hfind
      refine ⟨fun hout => absurd ⟨drive, part, hfind, hfit⟩ hout, fun drive' part' hc _ => ?_⟩
      cases hc
      exact h.issue ⟨hfind, hg, hsize, hfit⟩ hs

/-- A turn on a fresh request gives a command for exactly the sectors of a block of the
partition and refuses any other block, if and only if the block number has no alias there. -/
theorem partition_isolated_iff (hD : D.Partitioned) (h : s.Built req rw b) :
    (∀ ready polls s', s.doHdRequest D ready polls = some s' →
      (¬ D.InPartition ((s.cache.bh b).bDev.zeroExtend 32) (s.cache.bh b).bBlocknr →
        Refused s s' req) ∧
      ∀ drive part,
        D.find ((MINOR ((s.cache.bh b).bDev.zeroExtend 32)).setWidth 8) = some (drive, part) →
        2 * (s.cache.bh b).bBlocknr.toNat + 2 ≤ part.nrSects.toNat →
        Commanded s s' rw drive (part.sectorOf (s.cache.bh b).bBlocknr)) ↔
    NoAlias D ((s.cache.bh b).bDev.zeroExtend 32) (s.cache.bh b).bBlocknr := by
  constructor
  · intro hall drive part hfind
    by_contra hc
    obtain ⟨hbig, hpass⟩ := not_or.mp hc
    have hturn := h.turn_some [0x40] [DRQ_STAT] hfind
    rw [if_neg fun ht => hpass ((test_toNat _ _).mp ht)] at hturn
    obtain ⟨s', hs', hret⟩ := h.issue_ready (hD _ _ _ hfind).1.checked
      ((s.cache.bh b).bBlocknr * 2 + part.startSect)
    have hout : ¬ D.InPartition ((s.cache.bh b).bDev.zeroExtend 32) (s.cache.bh b).bBlocknr := by
      rintro ⟨drive', part', hfind', hle⟩
      rw [hfind] at hfind'
      cases hfind'
      have hlt := part.nrSects.isLt
      omega
    have hrefused := (hall _ _ s' (hturn.trans hs')).1 hout
    rw [hrefused.retired] at hret
    simp at hret
  · intro hno ready polls s' hs'
    exact h.turn hD hno hs'

/-! ## Up to the first transfer -/

/-- The request waits for its next turn, or for the drive to recalibrate before it. -/
structure Due (s₀ s : Hd n) (req : Slot) (rw : U32) (b : Fin n) : Prop where
  built : s.Built req rw b
  cache : s.cache = s₀.cache
  next : s.repeating = true ∨ s.doHd = some .recalIntr

/-- The step refuses the request, gives it up after a failed recalibration, or gives the command
for the two sectors of its block, which is one of the partition. -/
inductive Settled (D : Drives) (s s' : Hd n) (req : Slot) (rw : U32) (b : Fin n) : Prop
  | refused (h : Refused s s' req)
  | givenUp (h : s'.retired = s.retired ++ [(req, false)])
  | read (drive : Drive) (part : HdStruct)
      (hin : D.Inside ((s.cache.bh b).bDev.zeroExtend 32) (s.cache.bh b).bBlocknr drive part)
      (hrw : rw = BLK_READ) (hjob : s'.ctl.job = .read drive (part.sectorOf (s.cache.bh b).bBlocknr) 2)
  | write (drive : Drive) (part : HdStruct) (data : Option Sector)
      (hin : D.Inside ((s.cache.bh b).bDev.zeroExtend 32) (s.cache.bh b).bBlocknr drive part)
      (hrw : rw = BLK_WRITE)
      (hjob : s'.ctl.job = .write drive (part.sectorOf (s.cache.bh b).bBlocknr) 2 data)

theorem Due.turn (hD : D.Partitioned) {s₀ : Hd n} (h : Due s₀ s req rw b)
    (hno : NoAlias D ((s₀.cache.bh b).bDev.zeroExtend 32) (s₀.cache.bh b).bBlocknr)
    {ready polls : List (BitVec 8)} (hs : s.doHdRequest D ready polls = some s') :
    Due s₀ s' req rw b ∨ Settled D s s' req rw b := by
  rw [← h.cache] at hno
  obtain ⟨hout, hin⟩ := h.built.turn hD hno hs
  by_cases hp : D.InPartition ((s.cache.bh b).bDev.zeroExtend 32) (s.cache.bh b).bBlocknr
  · obtain ⟨drive, part, hfind, hfit⟩ := hp
    have hinside : D.Inside ((s.cache.bh b).bDev.zeroExtend 32) (s.cache.bh b).bBlocknr drive part :=
      ⟨hfind, (hD _ _ _ hfind).1, (hD _ _ _ hfind).2, hfit⟩
    cases hin drive part hfind hfit with
    | recalibrating hjob hdo hdev hcache =>
      obtain ⟨hhead, hrw, hbuilt, hmajor, hlocked⟩ := h.built
      refine Or.inl ⟨⟨?_, hrw, ?_, ?_, ?_⟩, hcache.trans h.cache, Or.inr hdo⟩
      · rwa [currReq, hdev]
      · rwa [hdev, hcache]
      · rwa [hcache]
      · rwa [hcache]
    | read hrw hjob => exact Or.inr (.read drive part hinside hrw hjob)
    | write data hrw hjob => exact Or.inr (.write drive part data hinside hrw hjob)
  · exact Or.inr (.refused (hout hp))

theorem Due.step (hD : D.Partitioned) {s₀ : Hd n} (h : Due s₀ s req rw b)
    (hno : NoAlias D ((s₀.cache.bh b).bDev.zeroExtend 32) (s₀.cache.bh b).bBlocknr)
    {a : HdAct} (hs : Step D s a s') : Due s₀ s' req rw b ∨ Settled D s s' req rw b := by
  cases a with
  | turn ready polls =>
    by_cases hrep : s.repeating = true
    · exact h.turn hD hno ((if_pos hrep).symm.trans hs)
    · cases (if_neg hrep).symm.trans hs
  | intr status junk =>
    by_cases hrep : s.repeating = true
    · cases (if_pos hrep).symm.trans hs
    · obtain ⟨⟨ctl, disks⟩, -, hintr⟩ := Option.bind_eq_some_iff.mp ((if_neg hrep).symm.trans hs)
      have hdo := h.next.resolve_left hrep
      simp only [hdInterrupt, hdo] at hintr
      have hbuilt : Built { s with ctl := ctl, disks := disks, doHd := none, repeating := true }
          req rw b := ⟨h.built.head, h.built.rw_cases, h.built.built, h.built.major, h.built.locked⟩
      rcases hbuilt.recalIntr hintr with ⟨hbuilt', hcache, hrep'⟩ | hret
      · exact Or.inl ⟨hbuilt', hcache.trans h.cache, Or.inl hrep'⟩
      · exact Or.inr (.givenUp hret)

/-- In a run from a fresh request it stays due, through resets and recalibrations, until a step
settles it: a command that moves data is for the two sectors of its block. -/
theorem partition_isolated_run (hD : D.Partitioned) {s₀ : Hd n} {as : List HdAct}
    (h : s₀.Built req rw b) (hrep : s₀.repeating = true)
    (hno : NoAlias D ((s₀.cache.bh b).bDev.zeroExtend 32) (s₀.cache.bh b).bBlocknr)
    (hrun : Run (Step D) s₀ as s) :
    Due s₀ s req rw b ∨ ∃ pre a post t u, as = pre ++ a :: post ∧ Run (Step D) s₀ pre t ∧
      Step D t a u ∧ Due s₀ t req rw b ∧ Settled D t u req rw b := by
  induction hrun with
  | nil => exact Or.inl ⟨h, rfl, Or.inl hrep⟩
  | @snoc as t u a hrun hstep ih =>
    rcases ih with hdue | ⟨pre, a', post, v, w, rfl, hpre, hstep', hdue, hsettled⟩
    · rcases hdue.step hD hno hstep with hdue' | hsettled
      · exact Or.inl hdue'
      · exact Or.inr ⟨as, a, [], t, u, rfl, hrun, hstep, hdue, hsettled⟩
    · refine Or.inr ⟨pre, a', post ++ [a], v, w, ?_, hpre, hstep', hdue, hsettled⟩
      rw [List.append_assoc, List.cons_append]

end Hd

/-! ## A block number that has an alias

Block 2^31 + 5 of the first partition is twice itself in 32 bits what block 5 is. -/

namespace Alias

open SecondSectorFails (drives)

def cache (blocknr : U32) : Cache 1 :=
  (Cache.bufferInit 0x200000 fun _ => 0).store (some 0) fun h =>
    { h with bDev := 0x301, bBlocknr := blocknr, bCount := 1, bLock := 1 }

/-- Buffer 0 is to be read, and the drive is ready. -/
def start (blocknr : U32) : Hd 1 :=
  { SecondSectorFails.start with
    dev := (BlkDev.static.blkReqInit.hdInit.fill 31 BLK_READ 0 ((cache blocknr).bh 0)).addRequest
      .linking BLK_DEV_NUM_HD 31 |>.getD BlkDev.static
    cache := cache blocknr
    reset := false
    recalibrate := false }

theorem drives_partitioned : drives.Partitioned := by
  intro minor drive part h
  have hhw : drives.hdHw drive = { head := 4, sect := 17, cyl := 100, wpcom := 0, ctl := 8 } := rfl
  have hpart : part = ⟨63, 2000⟩ := by
    unfold Drives.find at h
    split at h
    · exact (congrArg Prod.snd (Option.some.inj h)).symm
    · cases h
  rw [hhw, hpart]
  exact ⟨⟨by decide, by decide, by decide, by decide, by decide⟩, by decide⟩

theorem start_built (blocknr : U32) : (start blocknr).Built 31 BLK_READ 0 :=
  ⟨rfl, Or.inl rfl, ⟨0, none, rfl⟩, show MAJOR ((0x301#16).zeroExtend 32) = 3 by decide,
    show 1#8 ≠ 0 by decide⟩

end Alias

theorem partition_isolated_iff_block_five :
    ∃ s', (Alias.start 5).doHdRequest SecondSectorFails.drives [0x40] [] = some s' ∧
      Hd.Commanded (Alias.start 5) s' BLK_READ 0 73 := by
  have hsome : ((Alias.start 5).doHdRequest SecondSectorFails.drives [0x40] []).isSome := by
    decide +kernel
  obtain ⟨s', hs'⟩ := Option.isSome_iff_exists.mp hsome
  have hall := (Hd.partition_isolated_iff Alias.drives_partitioned (Alias.start_built 5)).mpr
    (fun _ _ _ => Or.inl (by decide))
  exact ⟨s', hs', (hall _ _ s' hs').2 0 ⟨63, 2000⟩ rfl (by decide)⟩

/-- Block 2^31 + 5 lies in no partition, and yet sectors 73 and 74 of the drive are read. -/
theorem alias_reads_block_five :
    ¬ SecondSectorFails.drives.InPartition 0x301 0x80000005 ∧
      ∃ s', (Alias.start 0x80000005).doHdRequest SecondSectorFails.drives [0x40] [] = some s' ∧
        (Alias.start 0x80000005).Built 31 BLK_READ 0 ∧ s'.doHd = some .readIntr ∧
        s'.ctl.job = .read 0 73 2 := by
  refine ⟨?_, _, rfl, Alias.start_built _, rfl, rfl⟩
  rintro ⟨drive, part, hfind, hle⟩
  have hlt := part.nrSects.isLt
  have hb : (0x80000005 : U32).toNat = 0x80000005 := rfl
  rw [hb] at hle
  omega

end Driver
end CherryOS
