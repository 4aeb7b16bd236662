import CherryOS.Driver.Addressing

/-!
# What the driver does with the request at the head

Between two statements of the driver that wait there is one turn of `do_hd_request` or one
interrupt, and nothing is assumed of the controller here: an interrupt may come whenever the
driver is at rest, with any status and any data.  `Did` lists what one of them can do to the
request at the head of the queue.
-/

namespace CherryOS
namespace Driver

open Kernel (U32)
open Fs (BufferHead Cache)
open Lib

/-- What the driver is told: by the ports that `controller_ready` and the wait for data read,
and by the next interrupt. -/
structure Answers where
  ready : List (BitVec 8)
  polls : List (BitVec 8)
  status : BitVec 8
  ctl : Controller
  disks : Disks

namespace Hd

variable {n : Nat}

/-- The next thing that the driver does. -/
def tick (D : Drives) (s : Hd n) (a : Answers) : Option (Hd n) :=
  if s.repeating then s.doHdRequest D a.ready a.polls
  else ({ s with ctl := a.ctl, disks := a.disks }).hdInterrupt a.status

/-- The interrupts of the controller are some of those. -/
theorem tick_of_next {D : Drives} {s s' : Hd n} {act : HdAct} (h : s.next D act = some s') :
    ∃ a, s.tick D a = some s' := by
  cases act with
  | turn ready polls =>
    rw [next] at h
    split at h
    · rename_i hrep
      exact ⟨⟨ready, polls, 0, s.ctl, s.disks⟩, by rw [tick, if_pos hrep]; exact h⟩
    · cases h
  | intr status junk =>
    rw [next] at h
    split at h
    · cases h
    · rename_i hrep
      obtain ⟨⟨ctl, disks⟩, -, h⟩ := Option.bind_eq_some_iff.mp h
      exact ⟨⟨[], [], status, ctl, disks⟩, by rw [tick, if_neg hrep]; exact h⟩

/-- `do_hd_request` is to take a turn, or an interrupt is expected. -/
def Active (s : Hd n) : Prop := s.repeating = true ∨ s.doHd ≠ none

/-- How many more ticks without a failure lead to a command for the request itself, and one
more while that command runs.  A reset is followed by a recalibration. -/
def stage (s : Hd n) : Nat :=
  let pending := if s.reset then 2 else if s.recalibrate then 1 else 0
  if s.repeating then 2 * pending + 2
  else
    match s.doHd with
    | none => 0
    | some .recalIntr => 2 * pending + 3
    | some .readIntr | some .writeIntr => 1

/-- `do_hd_request` finds the sectors of `req` on the disk. -/
def passes (D : Drives) (s : Hd n) (req : Slot) : Bool :=
  (D.find ((MINOR (s.dev.request req).dev).setWidth 8)).any fun found =>
    !decide (found.2.nrSects < (s.dev.request req).sector + 2)

/-- The turn gives a write command, and the controller asks for no data. -/
def timesOut (D : Drives) (s : Hd n) (a : Answers) (req : Slot) : Bool :=
  s.passes D req && !s.reset && !s.recalibrate &&
    decide ((s.dev.request req).cmd = BLK_WRITE) && !drqSeen a.polls

/-- A command fails: no data is asked for, or an expected interrupt comes with an error. -/
def fails (D : Drives) (s : Hd n) (a : Answers) (req : Slot) : Bool :=
  if s.repeating then s.timesOut D a req else s.doHd.isSome && cmdResult a.status

/-- The request `req` is still at the head of the same queue. -/
structure Keeps (s s' : Hd n) (req : Slot) : Prop where
  currReq : s'.currReq = s.currReq
  dev : (s'.dev.request req).dev = (s.dev.request req).dev
  cmd : (s'.dev.request req).cmd = (s.dev.request req).cmd
  bh : (s'.dev.request req).bh = (s.dev.request req).bh
  next : (s'.dev.request req).next = (s.dev.request req).next
  others : ∀ x, x ≠ req → s'.dev.request x = s.dev.request x
  cache : s'.cache = s.cache
  retired : s'.retired = s.retired

/-- The request `req` was retired. -/
structure Retires (s s' : Hd n) (req : Slot) (uptodate : Bool) : Prop where
  currReq : s'.currReq = (s.dev.request req).next
  others : ∀ x, x ≠ req → s'.dev.request x = s.dev.request x
  cache : s'.cache = s.cache.store (s.dev.request req).bh fun h =>
    { h with bUptodate := if uptodate then 1 else 0, bLock := 0 }
  retired : s'.retired = s.retired ++ [(req, uptodate)]
  repeating : s'.repeating = true

/-- What one tick does with the request at the head. -/
inductive Did (D : Drives) (a : Answers) (req : Slot) (s s' : Hd n) : Prop
  /-- A command is given, or one that moved no data is over. -/
  | went (hfails : s.fails D a req = false) (hkeeps : Keeps s s' req)
      (hreq : s'.dev.request req = s.dev.request req)
      (hstage : s.Active → s'.Active ∧ s'.stage < s.stage)
      (hreturns : s.repeating = true → s'.repeating = false ∧ s.passes D req = true)
  /-- A sector was moved, and it was not the last. -/
  | moved (hrest : s.repeating = false) (hfails : s.fails D a req = false)
      (hkeeps : Keeps s s' req)
      (hsector : (s'.dev.request req).sector = (s.dev.request req).sector + 1)
      (hnr : (s'.dev.request req).nrSector = (s.dev.request req).nrSector - 1)
      (hmore : (s.dev.request req).nrSector - 1 ≠ 0)
      (herrors : (s'.dev.request req).errors = 0 ∨
        (s'.dev.request req).errors = (s.dev.request req).errors)
      (hactive : s'.Active)
  | failed (hfails : s.fails D a req = true) (hkeeps : Keeps s s' req)
      (hreq : s'.dev.request req =
        { s.dev.request req with errors := (s.dev.request req).errors + 1 })
      (hleft : MAX_ERRORS.sle ((s.dev.request req).errors + 1) = false)
      (hrep : s'.repeating = true)
  | gaveUp (hfails : s.fails D a req = true)
      (hfull : MAX_ERRORS.sle ((s.dev.request req).errors + 1) = true)
      (hretires : Retires s s' req false)
  | refused (hrep : s.repeating = true) (hout : s.passes D req = false)
      (hretires : Retires s s' req false)
  | finished (hrest : s.repeating = false) (hfails : s.fails D a req = false)
      (hretires : Retires s s' req true)

section did

variable {D : Drives} {s s' t : Hd n} {a : Answers} {req : Slot} {drive : Drive}

theorem Keeps.trans (h : Keeps s t req) (h' : Keeps t s' req) : Keeps s s' req where
  currReq := h'.currReq.trans h.currReq
  dev := h'.dev.trans h.dev
  cmd := h'.cmd.trans h.cmd
  bh := h'.bh.trans h.bh
  next := h'.next.trans h.next
  others x hx := (h'.others x hx).trans (h.others x hx)
  cache := h'.cache.trans h.cache
  retired := h'.retired.trans h.retired

/-- Nothing of the queue is touched. -/
theorem keeps_of_same (hdev : s'.dev = s.dev) (hcache : s'.cache = s.cache)
    (hretired : s'.retired = s.retired) : Keeps s s' req := by
  refine ⟨?_, ?_, ?_, ?_, ?_, fun x _ => ?_, hcache, hretired⟩
  · rw [currReq, hdev, currReq]
  all_goals rw [hdev]

/-- Fields of the request that tell nobody who it is. -/
theorem keeps_setReq {f : BlkRequest n → BlkRequest n}
    (hf : ∀ r : BlkRequest n, (f r).dev = r.dev ∧ (f r).cmd = r.cmd ∧ (f r).bh = r.bh ∧
      (f r).next = r.next) : Keeps s (s.setReq req f) req := by
  have hself : (s.setReq req f).dev.request req = f (s.dev.request req) := setReq_self f
  obtain ⟨hdev, hcmd, hbh, hnext⟩ := hf (s.dev.request req)
  refine ⟨rfl, ?_, ?_, ?_, ?_, fun x hx => ?_, rfl, rfl⟩
  · rw [hself, hdev]
  · rw [hself, hcmd]
  · rw [hself, hbh]
  · rw [hself, hnext]
  · rw [setReq, BlkDev.set_request, if_neg hx]

theorem Retires.of_keeps {ok : Bool} (h : Retires t s' req ok) (hk : Keeps s t req) :
    Retires s s' req ok := by
  refine ⟨h.currReq.trans hk.next, fun x hx => (h.others x hx).trans (hk.others x hx), ?_, ?_,
    h.repeating⟩
  · rw [h.cache, hk.cache, hk.bh]
  · rw [h.retired, hk.retired]

theorem retires_of_endRequest {ok : Bool} (hr : s.currReq = some req)
    (hrep : s.repeating = true) (h : s.endRequest ok = some s') : Retires s s' req ok := by
  rw [endRequest_head hr] at h
  cases h
  refine ⟨ended_currReq ok, fun x hx => ?_, rfl, rfl, hrep⟩
  rw [ended_request, if_neg hx]

/-- A failure is counted, and the last one that is allowed retires the request. -/
theorem did_badRwIntr (hr : s.currReq = some req) (hfails : s.fails D a req = true)
    (hk : Keeps s t req) (hreq : t.dev.request req = s.dev.request req)
    (hrep : t.repeating = true) (h : t.badRwIntr = some s') : Did D a req s s' := by
  have htr : t.currReq = some req := hk.currReq.trans hr
  rw [badRwIntr_head htr] at h
  cases h
  have hcounted : Keeps t (t.counted req) req := keeps_setReq fun _ => ⟨rfl, rfl, rfl, rfl⟩
  by_cases hfull : MAX_ERRORS.sle ((s.dev.request req).errors + 1) = true
  · have hgave : t.gaveUp req = true := by rw [gaveUp, hreq]; exact hfull
    have hends : (t.counted req).endRequest false = some ((t.counted req).ended req false) :=
      endRequest_head (s := t.counted req) htr false
    have hret := retires_of_endRequest (s := t.counted req) htr hrep hends
    have hret' := (hret.of_keeps hcounted).of_keeps hk
    refine .gaveUp hfails hfull ?_
    rw [tested, if_pos hgave]
    exact ⟨hret'.currReq, hret'.others, hret'.cache, hret'.retired, hret'.repeating⟩
  · have hfull' := Bool.eq_false_iff.mpr hfull
    have hgave : t.gaveUp req = false := by rw [gaveUp, hreq]; exact hfull'
    rw [tested, if_neg (by rw [hgave]; decide)]
    refine .failed hfails ((hk.trans hcounted).trans (keeps_of_same rfl rfl rfl)) ?_ hfull' hrep
    rw [← hreq]
    exact counted_self

theorem passes_eq {part : HdStruct}
    (hfind : D.find ((MINOR (s.dev.request req).dev).setWidth 8) = some (drive, part)) :
    s.passes D req = !decide (part.nrSects < (s.dev.request req).sector + 2) := by
  rw [passes, hfind]
  rfl

/-- A command is given, and `do_hd_request` returns. -/
theorem did_command (hrep : s.repeating = true) (hpass : s.passes D req = true)
    (htimes : s.timesOut D a req = false)
    (hdev : s'.dev = s.dev) (hcache : s'.cache = s.cache) (hretired : s'.retired = s.retired)
    (hrest : s'.repeating = false) (hdo : s'.doHd ≠ none) (hstage : s'.stage < s.stage) :
    Did D a req s s' := by
  refine .went ?_ (keeps_of_same hdev hcache hretired) (by rw [hdev])
    (fun _ => ⟨Or.inr hdo, hstage⟩) fun _ => ⟨hrest, hpass⟩
  rw [fails, if_pos hrep]
  exact htimes

theorem did_issue (hr : s.currReq = some req) (hrep : s.repeating = true)
    (hpass : s.passes D req = true) {absBlock : U32}
    (h : s.issue D a.ready a.polls req drive absBlock = some s') : Did D a req s s' := by
  rw [issue] at h
  split at h
  · cases h
  dsimp only at h
  split at h
  · rename_i hreset
    obtain rfl := hdOut_eq h
    exact did_command hrep hpass (by simp [timesOut, hreset]) rfl rfl rfl rfl (by simp)
      (by simp [stage, hrep, hreset, resetController])
  rename_i hreset
  split at h
  · rename_i hrecal
    obtain rfl := hdOut_eq h
    exact did_command hrep hpass (by simp [timesOut, hrecal]) rfl rfl rfl rfl (by simp)
      (by simp [stage, hrep, hreset, hrecal])
  rename_i hrecal
  split at h
  · rename_i hwrite
    obtain ⟨t, ht, h⟩ := Option.bind_eq_some_iff.mp h
    have ht := hdOut_eq ht
    split at h
    · rename_i hdrq
      cases h
      rw [ht]
      exact did_command hrep hpass (by simp [timesOut, hdrq]) rfl rfl rfl rfl (by simp)
        (by simp [stage, hrep, hreset, hrecal])
    · rename_i hdrq
      refine did_badRwIntr hr ?_ (keeps_of_same ?_ ?_ ?_) ?_ ?_ h
      · rw [fails, if_pos hrep]
        simp [timesOut, hpass, hreset, hrecal, hwrite, hdrq]
      all_goals rw [ht]
      exact hrep
  rename_i hwrite
  split at h
  · obtain rfl := hdOut_eq h
    exact did_command hrep hpass (by simp [timesOut, hwrite]) rfl rfl rfl rfl (by simp)
      (by simp [stage, hrep, hreset, hrecal])
  · cases h

theorem did_turn (hr : s.currReq = some req) (hrep : s.repeating = true)
    (h : s.doHdRequest D a.ready a.polls = some s') : Did D a req s s' := by
  rw [doHdRequest, hr] at h
  dsimp only at h
  split at h
  · cases h
  split at h
  · cases h
  split at h
  · rename_i hfind
    refine .refused hrep ?_ (retires_of_endRequest hr hrep h)
    rw [passes, hfind]
    rfl
  · rename_i drive part hfind
    split at h
    · rename_i hout
      refine .refused hrep ?_ (retires_of_endRequest hr hrep h)
      rw [passes_eq hfind, decide_eq_true hout]
      rfl
    · rename_i hin
      refine did_issue hr hrep ?_ h
      rw [passes_eq hfind, decide_eq_false hin]
      rfl

theorem did_readIntr (hr : s.currReq = some req) (hk : Keeps s t req) (hdev : t.dev = s.dev)
    (hrest : s.repeating = false) (hrep : t.repeating = true)
    (hfails : s.fails D a req = cmdResult a.status)
    (h : t.readIntr a.status = some s') : Did D a req s s' := by
  have hreq : t.dev.request req = s.dev.request req := by rw [hdev]
  rw [readIntr] at h
  split at h
  · rename_i hbad
    exact did_badRwIntr hr (hfails.trans hbad) hk hreq hrep h
  rename_i hgood
  have hgood := hfails.trans (Bool.eq_false_iff.mpr hgood)
  rw [hk.currReq.trans hr, Option.bind_some] at h
  dsimp only at h
  obtain ⟨u, hu⟩ : ∃ u, u = ({ t with mem := portRead t.mem (t.dev.request req).buffer t.ctl.data }
      : Hd n).setReq req fun r =>
        { r with
          errors := 0, buffer := r.buffer + 512, sector := r.sector + 1
          nrSector := r.nrSector - 1 } := ⟨_, rfl⟩
  have hku : Keeps s u req := by
    have hmem : Keeps t { t with mem := portRead t.mem (t.dev.request req).buffer t.ctl.data }
        req := keeps_of_same rfl rfl rfl
    rw [hu]
    refine hk.trans (hmem.trans (keeps_setReq fun _ => ?_))
    exact ⟨rfl, rfl, rfl, rfl⟩
  have huself : u.dev.request req =
      { s.dev.request req with
        errors := 0, buffer := (s.dev.request req).buffer + 512
        sector := (s.dev.request req).sector + 1
        nrSector := (s.dev.request req).nrSector - 1 } := by
    rw [hu, setReq_self]
    dsimp only
    rw [hreq]
  rw [← hu] at h
  split at h
  · rename_i hmore
    cases h
    rw [huself] at hmore
    refine .moved hrest hgood (hku.trans (keeps_of_same rfl rfl rfl)) ?_ ?_ hmore (Or.inl ?_)
      (Or.inr (by simp))
    all_goals rw [huself]
  · have hret := retires_of_endRequest (hku.currReq.trans hr) (hu ▸ hrep) h
    exact .finished hrest hgood (hret.of_keeps hku)

theorem did_writeIntr (hr : s.currReq = some req) (hk : Keeps s t req) (hdev : t.dev = s.dev)
    (hrest : s.repeating = false) (hrep : t.repeating = true)
    (hfails : s.fails D a req = cmdResult a.status)
    (h : t.writeIntr a.status = some s') : Did D a req s s' := by
  have hreq : t.dev.request req = s.dev.request req := by rw [hdev]
  rw [writeIntr] at h
  split at h
  · rename_i hbad
    exact did_badRwIntr hr (hfails.trans hbad) hk hreq hrep h
  rename_i hgood
  have hgood := hfails.trans (Bool.eq_false_iff.mpr hgood)
  rw [hk.currReq.trans hr, Option.bind_some] at h
  dsimp only at h
  obtain ⟨u, hu⟩ : ∃ u, u = t.setReq req fun r => { r with nrSector := r.nrSector - 1 } :=
    ⟨_, rfl⟩
  have hku : Keeps s u req := by
    rw [hu]
    exact hk.trans (keeps_setReq fun _ => ⟨rfl, rfl, rfl, rfl⟩)
  have huself : u.dev.request req =
      { s.dev.request req with nrSector := (s.dev.request req).nrSector - 1 } := by
    rw [hu, setReq_self, hreq]
  rw [← hu] at h
  split at h
  · rename_i hmore
    cases h
    rw [huself] at hmore
    have hlast : Keeps u (u.setReq req fun r =>
        { r with sector := r.sector + 1, buffer := r.buffer + 512 }) req :=
      keeps_setReq fun _ => ⟨rfl, rfl, rfl, rfl⟩
    have hself : (u.setReq req fun r =>
        { r with sector := r.sector + 1, buffer := r.buffer + 512 }).dev.request req =
        { s.dev.request req with
          sector := (s.dev.request req).sector + 1
          buffer := (s.dev.request req).buffer + 512
          nrSector := (s.dev.request req).nrSector - 1 } := by
      rw [setReq_self, huself]
    refine .moved hrest hgood ((hku.trans hlast).trans (keeps_of_same rfl rfl rfl)) ?_ ?_ hmore
      (Or.inr ?_) (Or.inr (by simp))
    all_goals
      dsimp only
      rw [hself]
  · have hret := retires_of_endRequest (hku.currReq.trans hr) (hu ▸ hrep) h
    exact .finished hrest hgood (hret.of_keeps hku)

theorem did_intr (hr : s.currReq = some req) (hrep : s.repeating = false)
    (h : ({ s with ctl := a.ctl, disks := a.disks }).hdInterrupt a.status = some s') :
    Did D a req s s' := by
  have hk : Keeps s { s with ctl := a.ctl, disks := a.disks, doHd := none, repeating := true }
      req := keeps_of_same rfl rfl rfl
  have hfails : ∀ f, s.doHd = some f → s.fails D a req = cmdResult a.status := by
    intro f hf
    rw [fails, if_neg (by rw [hrep]; decide), hf, Option.isSome_some, Bool.true_and]
  simp only [hdInterrupt] at h
  cases hdo : s.doHd with
  | none =>
    rw [hdo] at h
    cases h
    refine .went ?_ (keeps_of_same rfl rfl rfl) rfl (fun hactive => ?_) fun hc => ?_
    · rw [fails, if_neg (by rw [hrep]; decide), hdo]
      rfl
    · rcases hactive with hc | hc
      · rw [hrep] at hc
        cases hc
      · exact absurd hdo hc
    · rw [hrep] at hc
      cases hc
  | some f =>
    rw [hdo] at h
    cases f with
    | readIntr => exact did_readIntr hr hk rfl hrep rfl (hfails _ hdo) h
    | writeIntr => exact did_writeIntr hr hk rfl hrep rfl (hfails _ hdo) h
    | recalIntr =>
      dsimp only at h
      rw [recalIntr] at h
      split at h
      · rename_i hbad
        exact did_badRwIntr hr ((hfails _ hdo).trans hbad) hk rfl rfl h
      · rename_i hgood
        cases h
        refine .went ((hfails _ hdo).trans (Bool.eq_false_iff.mpr hgood))
          (keeps_of_same rfl rfl rfl) rfl (fun _ => ⟨Or.inl rfl, ?_⟩) fun hc => ?_
        · simp [stage, hrep, hdo]
        · rw [hrep] at hc
          cases hc

/-- What a tick does with the request at the head. -/
theorem did_tick (hr : s.currReq = some req) (h : s.tick D a = some s') : Did D a req s s' := by
  rw [tick] at h
  split at h
  · rename_i hrep
    exact did_turn hr hrep h
  · rename_i hrep
    exact did_intr hr (Bool.eq_false_iff.mpr hrep) h

end did

end Hd

end Driver
end CherryOS
