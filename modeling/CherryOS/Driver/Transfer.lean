import CherryOS.Driver.Commands

/-!
# Transfers

A request is for two sectors.  Commands fail, the controller is reset, and a command is
given again, sometimes for the second sector alone.  How far the request has come is in
the request itself: `sector`, `buffer` and `nr_sector` move on together, and only after
the data of a sector has moved.  What is still to be done is then always the rest of the
same block and the same buffer.
-/

namespace CherryOS
namespace Driver

open Kernel (U32)
open Fs (BufferHead Cache)
open Lib

variable {n : Nat} {D : Drives}

/-! ## What the driver's functions do -/

namespace Hd

variable {s s' : Hd n} {req : Slot}

theorem setReq_self (f : BlkRequest n → BlkRequest n) :
    (s.setReq req f).dev.request req = f (s.dev.request req) := by
  rw [setReq, BlkDev.set_request, if_pos rfl]

theorem endRequest_eq {ok : Bool} (hreq : s.currReq = some req)
    (h : s.endRequest ok = some s') :
    s'.mem = s.mem ∧ s'.disks = s.disks ∧ s'.retired = s.retired ++ [(req, ok)] := by
  rw [endRequest, hreq, Option.bind_some] at h
  obtain ⟨⟨d, c⟩, _, rfl⟩ := Option.map_eq_some_iff.mp h
  exact ⟨rfl, rfl, rfl⟩

/-- The request is tried again, or given up. -/
theorem badRwIntr_cases (hreq : s.currReq = some req) (h : s.badRwIntr = some s') :
    (∃ e, s' = { s.setReq req (fun r => { r with errors := r.errors + 1 }) with reset := e }) ∨
      s'.mem = s.mem ∧ s'.disks = s.disks ∧ s'.retired = s.retired ++ [(req, false)] := by
  simp only [badRwIntr, hreq, Option.bind_eq_bind, Option.bind_some] at h
  split at h
  · obtain ⟨s₁, h₁, h₂⟩ := Option.bind_eq_some_iff.mp h
    cases h₂
    obtain ⟨hmem, hdisks, hretired⟩ := endRequest_eq
      (s := s.setReq req fun r => { r with errors := r.errors + 1 }) hreq h₁
    exact Or.inr ⟨hmem, hdisks, hretired⟩
  · cases h
    exact Or.inl ⟨_, rfl⟩

theorem hdOut_eq {ready : List (BitVec 8)} {dev : Drive} {nsect sect head cyl cmd : U32}
    {f : Handler} (h : s.hdOut D ready dev nsect sect head cyl cmd f = some s') :
    s' = { s with doHd := some f, ctl := D.command s.ctl dev nsect sect head cyl cmd } := by
  rw [hdOut] at h
  split at h
  · cases h
  · cases h
    rfl

/-! The history only grows. -/

variable {old : List (Slot × Bool)}

theorem retired_endRequest {ok : Bool} (h : s.endRequest ok = some s') (hold : s.retired = old) :
    old <+: s'.retired := by
  obtain ⟨req, hreq, -⟩ := Option.bind_eq_some_iff.mp h
  rw [(endRequest_eq hreq h).2.2, hold]
  exact List.prefix_append ..

theorem retired_badRwIntr (h : s.badRwIntr = some s') (hold : s.retired = old) :
    old <+: s'.retired := by
  obtain ⟨req, hreq, -⟩ := Option.bind_eq_some_iff.mp h
  rcases badRwIntr_cases hreq h with ⟨e, rfl⟩ | ⟨-, -, hr⟩
  · rw [← hold]
    exact List.prefix_rfl
  · rw [hr, hold]
    exact List.prefix_append ..

theorem retired_hdOut {ready : List (BitVec 8)} {dev : Drive} {nsect sect head cyl cmd : U32}
    {f : Handler} (h : s.hdOut D ready dev nsect sect head cyl cmd f = some s')
    (hold : s.retired = old) : old <+: s'.retired := by
  rw [hdOut_eq h, ← hold]

theorem retired_issue {ready polls : List (BitVec 8)} {dev : Drive} {absBlock : U32}
    (h : s.issue D ready polls req dev absBlock = some s') : s.retired <+: s'.retired := by
  rw [issue] at h
  split at h
  · cases h
  dsimp only at h
  split at h
  · exact retired_hdOut h rfl
  split at h
  · exact retired_hdOut h rfl
  split at h
  · obtain ⟨t, ht, h⟩ := Option.bind_eq_some_iff.mp h
    have hsame := retired_hdOut ht rfl
    split at h
    · cases h
      exact hsame
    · exact hsame.trans (retired_badRwIntr h rfl)
  split at h
  · exact retired_hdOut h rfl
  · cases h

theorem retired_doHdRequest {ready polls : List (BitVec 8)}
    (h : s.doHdRequest D ready polls = some s') : s.retired <+: s'.retired := by
  rw [doHdRequest] at h
  split at h
  · cases h
    exact List.prefix_rfl
  dsimp only at h
  split at h
  · cases h
  split at h
  · cases h
  split at h
  · exact retired_endRequest h rfl
  split at h
  · exact retired_endRequest h rfl
  · exact retired_issue h

theorem retired_readIntr {status : BitVec 8} (h : s.readIntr status = some s')
    (hold : s.retired = old) : old <+: s'.retired := by
  rw [readIntr] at h
  split at h
  · exact retired_badRwIntr h hold
  obtain ⟨req, -, h⟩ := Option.bind_eq_some_iff.mp h
  dsimp only at h
  split at h
  · cases h
    rw [← hold]
    exact List.prefix_rfl
  · exact retired_endRequest h hold

theorem retired_writeIntr {status : BitVec 8} (h : s.writeIntr status = some s')
    (hold : s.retired = old) : old <+: s'.retired := by
  rw [writeIntr] at h
  split at h
  · exact retired_badRwIntr h hold
  obtain ⟨req, -, h⟩ := Option.bind_eq_some_iff.mp h
  dsimp only at h
  split at h
  · cases h
    rw [← hold]
    exact List.prefix_rfl
  · exact retired_endRequest h hold

theorem retired_recalIntr {status : BitVec 8} (h : s.recalIntr status = some s')
    (hold : s.retired = old) : old <+: s'.retired := by
  rw [recalIntr] at h
  split at h
  · exact retired_badRwIntr h hold
  · cases h
    rw [← hold]

theorem retired_hdInterrupt {status : BitVec 8} (h : s.hdInterrupt status = some s')
    (hold : s.retired = old) : old <+: s'.retired := by
  rw [hdInterrupt] at h
  split at h
  · cases h
    rw [← hold]
  · exact retired_readIntr h hold
  · exact retired_writeIntr h hold
  · exact retired_recalIntr h hold

theorem retired_step {act : HdAct} (h : Hd.Step D s act s') : s.retired <+: s'.retired := by
  rw [Step, Steps, next.eq_def] at h
  cases act with
  | turn ready polls =>
    dsimp only at h
    split at h
    · exact retired_doHdRequest h
    · cases h
  | intr status junk =>
    dsimp only at h
    split at h
    · cases h
    · obtain ⟨⟨ctl, disks⟩, -, h⟩ := Option.bind_eq_some_iff.mp h
      exact retired_hdInterrupt h rfl

theorem retired_run {acts : List HdAct} (h : Run (Hd.Step D) s acts s') :
    s.retired <+: s'.retired :=
  h.invariant (P := fun t => s.retired <+: t.retired) List.prefix_rfl fun _ _ _ ht hs =>
    ht.trans (retired_step hs)

end Hd

/-! ## How far a transfer has come -/

/-- The bytes of a disk from sector `start` on. -/
def bytesFrom (disks : Disks) (drive : Drive) (start i : Nat) : BitVec 8 :=
  disks drive (start + i / 512) (Fin.ofNat 512 i)

/-- `k` sectors have moved since `s₀`: from the disk for a read, to the disk for a write. -/
structure Moved (s₀ : Hd n) (q : BlkRequest n) (drive : Drive) (start k : Nat) (s : Hd n) :
    Prop where
  mem : s.mem = if q.cmd = BLK_READ then
    copyIn s₀.mem q.buffer (bytesFrom s₀.disks drive start) (512 * k) else s₀.mem
  written : q.cmd = BLK_WRITE → ∀ j < k, s.disks drive (start + j) =
    portWrite s₀.mem (q.buffer + BitVec.ofNat 32 (512 * j))
  kept : ∀ d l, (q.cmd = BLK_WRITE → d = drive → l ≠ start ∧ l ≠ start + 1) →
    s.disks d l = s₀.disks d l

/-- What interrupts next, and who is called. -/
inductive Awaits (s₀ : Hd n) (q : BlkRequest n) (drive : Drive) (start k : Nat) :
    Job → Option Handler → Prop
  | recal : Awaits s₀ q drive start k .noData (some .recalIntr)
  | read : q.cmd = BLK_READ →
      Awaits s₀ q drive start k (.read drive (start + k) (2 - k)) (some .readIntr)
  | write : q.cmd = BLK_WRITE →
      Awaits s₀ q drive start k
        (.write drive (start + k) (2 - k)
          (some (portWrite s₀.mem (q.buffer + BitVec.ofNat 32 (512 * k)))))
        (some .writeIntr)

/-- What is left of request `q` after `k` sectors. -/
structure Rest (q : BlkRequest n) (k : Nat) (q' : BlkRequest n) : Prop where
  dev : q'.dev = q.dev
  cmd : q'.cmd = q.cmd
  sector : q'.sector = q.sector + BitVec.ofNat 32 k
  nrSector : q'.nrSector = BitVec.ofNat 32 (2 - k)
  buffer : q'.buffer = q.buffer + BitVec.ofNat 32 (512 * k)

/-- The request at the head says that `k` sectors have moved, and they have. -/
structure Progress (s₀ : Hd n) (r : Slot) (drive : Drive) (start k : Nat) (s : Hd n) :
    Prop extends Moved s₀ (s₀.dev.request r) drive start k s where
  head : s.currReq = some r
  rest : Rest (s₀.dev.request r) k (s.dev.request r)
  le : k ≤ 1
  retired : s.retired = s₀.retired

structure Underway (s₀ : Hd n) (r : Slot) (drive : Drive) (start k : Nat) (s : Hd n) :
    Prop extends Progress s₀ r drive start k s where
  awaits : s.repeating = true ∨
    Awaits s₀ (s₀.dev.request r) drive start k s.ctl.job s.doHd

/-- After a step the transfer goes on, or the request is retired, and then with success only
if both sectors have moved. -/
def Outcome (s₀ : Hd n) (r : Slot) (drive : Drive) (start : Nat) (s : Hd n) : Prop :=
  (∃ k, Underway s₀ r drive start k s) ∨
    ∃ ok k, s.retired = s₀.retired ++ [(r, ok)] ∧ (ok = true → k = 2) ∧ k ≤ 2 ∧
      Moved s₀ (s₀.dev.request r) drive start k s

section steps

variable {s₀ s s' : Hd n} {r : Slot} {drive : Drive} {start k : Nat}

theorem Moved.congr {q : BlkRequest n} (h : Moved s₀ q drive start k s)
    (hmem : s'.mem = s.mem) (hdisks : s'.disks = s.disks) : Moved s₀ q drive start k s' :=
  ⟨hmem ▸ h.mem, hdisks ▸ h.written, hdisks ▸ h.kept⟩

theorem Moved.mem_of_write {q : BlkRequest n} (h : Moved s₀ q drive start k s)
    (hcmd : q.cmd = BLK_WRITE) : s.mem = s₀.mem := by
  rw [h.mem, hcmd]
  rfl

/-- Only the data, the request and the history matter. -/
theorem Progress.congr (h : Progress s₀ r drive start k s) (hdev : s'.dev = s.dev)
    (hmem : s'.mem = s.mem) (hdisks : s'.disks = s.disks) (hretired : s'.retired = s.retired) :
    Progress s₀ r drive start k s' := by
  have hreq : s'.currReq = s.currReq := by rw [Hd.currReq, hdev, Hd.currReq]
  exact ⟨h.toMoved.congr hmem hdisks, hreq ▸ h.head, hdev ▸ h.rest, h.le, hretired ▸ h.retired⟩

theorem Progress.given_up (h : Progress s₀ r drive start k s) (hmem : s'.mem = s.mem)
    (hdisks : s'.disks = s.disks) (hretired : s'.retired = s.retired ++ [(r, false)]) :
    Outcome s₀ r drive start s' := by
  refine Or.inr ⟨false, k, ?_, fun hok => ?_, Nat.le_succ_of_le h.le,
    h.toMoved.congr hmem hdisks⟩
  · rw [hretired, h.retired]
  · cases hok

theorem Progress.endRequest (h : Progress s₀ r drive start k s)
    (he : s.endRequest false = some s') : Outcome s₀ r drive start s' := by
  obtain ⟨hmem, hdisks, hretired⟩ := Hd.endRequest_eq h.head he
  exact h.given_up hmem hdisks hretired

theorem Progress.badRwIntr (h : Progress s₀ r drive start k s) (hrep : s.repeating = true)
    (hb : s.badRwIntr = some s') : Outcome s₀ r drive start s' := by
  rcases Hd.badRwIntr_cases h.head hb with ⟨e, rfl⟩ | ⟨hmem, hdisks, hretired⟩
  · refine Or.inl ⟨k, ⟨h.toMoved.congr rfl rfl, h.head, ?_, h.le, h.retired⟩, Or.inl hrep⟩
    show Rest _ k ((s.setReq r fun q => { q with errors := q.errors + 1 }).dev.request r)
    rw [Hd.setReq_self]
    exact ⟨h.rest.dev, h.rest.cmd, h.rest.sector, h.rest.nrSector, h.rest.buffer⟩
  · exact h.given_up hmem hdisks hretired

/-- A command that moves no data leaves everything as it is. -/
theorem Progress.recalibrating {t : Hd n} {ready : List (BitVec 8)} {dev : Drive}
    {nsect sect head cyl cmd : U32} (h : Progress s₀ r drive start k t)
    (ho : t.hdOut D ready dev nsect sect head cyl cmd .recalIntr = some s')
    (hcmd : (cmd.setWidth 8).zeroExtend 32 ≠ CMD_READ ∧
      (cmd.setWidth 8).zeroExtend 32 ≠ CMD_WRITE) :
    Outcome s₀ r drive start s' := by
  rw [Hd.hdOut_eq ho]
  refine Or.inl ⟨k, h.congr rfl rfl rfl rfl, Or.inr ?_⟩
  show Awaits _ _ _ _ _ (D.command t.ctl dev nsect sect head cyl cmd).job _
  rw [command_idle hcmd]
  exact Awaits.recal

theorem Progress.issue {ready polls : List (BitVec 8)} {absBlock : U32}
    (h : Progress s₀ r drive start k s) (hrep : s.repeating = true)
    (hg : (D.hdHw drive).Geometry) (habs : absBlock.toNat = start + k)
    (hsize : absBlock.toNat < (D.hdHw drive).size)
    (hi : s.issue D ready polls r drive absBlock = some s') : Outcome s₀ r drive start s' := by
  have hcount : (s.dev.request r).nrSector.toNat = 2 - k := by
    rw [h.rest.nrSector, BitVec.toNat_ofNat]
    omega
  obtain ⟨hread, hwrite⟩ := command_moves (c := s.ctl) hg hsize
    (show (s.dev.request r).nrSector.toNat ≤ 255 by omega)
  rw [Hd.issue] at hi
  split at hi
  · cases hi
  dsimp only at hi
  split at hi
  · rw [Hd.resetHd] at hi
    refine Progress.recalibrating (k := k) ?_ hi (by decide)
    exact h.congr rfl rfl rfl rfl
  split at hi
  · refine Progress.recalibrating (k := k) ?_ hi (by decide)
    exact h.congr rfl rfl rfl rfl
  split at hi
  · rename_i hcmd
    obtain ⟨t, ht, hi⟩ := Option.bind_eq_some_iff.mp hi
    have ht' := Hd.hdOut_eq ht
    split at hi
    · cases hi
      subst ht'
      refine Or.inl ⟨k, h.congr rfl rfl rfl rfl, Or.inr ?_⟩
      rw [habs, hcount] at hwrite
      show Awaits _ _ _ _ _ (Controller.give _ (portWrite s.mem (s.dev.request r).buffer)).job _
      rw [give_job hwrite, h.rest.buffer, h.mem_of_write (h.rest.cmd ▸ hcmd)]
      exact Awaits.write (h.rest.cmd ▸ hcmd)
    · subst ht'
      refine Progress.badRwIntr (k := k) ?_ ?_ hi
      · exact h.congr rfl rfl rfl rfl
      · exact hrep
  split at hi
  · rename_i hcmd
    rw [Hd.hdOut_eq hi]
    refine Or.inl ⟨k, h.congr rfl rfl rfl rfl, Or.inr ?_⟩
    show Awaits _ _ _ _ _ (D.command _ _ _ _ _ _ _).job _
    rw [hread, habs, hcount]
    exact Awaits.read (h.rest.cmd ▸ hcmd)
  · cases hi

/-- What a read has brought. -/
theorem Moved.read {q : BlkRequest n} (h : Moved s₀ q drive start 2 s)
    (hcmd : q.cmd = BLK_READ) (j : Nat) (hj : j < 2) (i : Fin 512) :
    s.mem (q.buffer + BitVec.ofNat 32 (512 * j + i)) = s.disks drive (start + j) i := by
  have hi := i.isLt
  have hdist : (q.buffer + BitVec.ofNat 32 (512 * j + i) - q.buffer).toNat = 512 * j + i :=
    (eq_add_ofNat_iff (by omega)).mp rfl
  rw [h.mem, if_pos hcmd, copyIn_apply (by omega), hdist, if_pos (by omega), bytesFrom,
    h.kept _ _ fun hw => absurd (hcmd.symm.trans hw) (by decide)]
  have hdiv : (512 * j + i.val) / 512 = j := by omega
  have hmod : Fin.ofNat 512 (512 * j + i.val) = i := by
    apply Fin.ext
    show (512 * j + i.val) % 512 = i.val
    omega
  rw [hdiv, hmod]

/-- What a write has left on the disk. -/
theorem Moved.write {q : BlkRequest n} (h : Moved s₀ q drive start 2 s)
    (hcmd : q.cmd = BLK_WRITE) (j : Nat) (hj : j < 2) (i : Fin 512) :
    s.disks drive (start + j) i = s.mem (q.buffer + BitVec.ofNat 32 (512 * j + i)) := by
  rw [h.written hcmd j hj, h.mem_of_write hcmd, portWrite, BitVec.add_assoc, BitVec.ofNat_add]

/-! ### Interrupts -/

/-- One sector more was read. -/
theorem Moved.read_sector {q : BlkRequest n} (h : Moved s₀ q drive start k s)
    (hcmd : q.cmd = BLK_READ) (hmem : s'.mem = portRead s.mem
      (q.buffer + BitVec.ofNat 32 (512 * k)) (s.disks drive (start + k)))
    (hdisks : s'.disks = s.disks) : Moved s₀ q drive start (k + 1) s' := by
  have hwrite : q.cmd ≠ BLK_WRITE := by
    rw [hcmd]
    decide
  refine ⟨?_, fun hw => absurd hw hwrite, hdisks ▸ h.kept⟩
  rw [hmem, h.mem, if_pos hcmd, if_pos hcmd, portRead, Nat.mul_succ, ← copyIn_copyIn]
  apply copyIn_congr
  intro i hi
  rw [h.kept _ _ fun hw => absurd hw hwrite, bytesFrom]
  have hdiv : (512 * k + i) / 512 = k := by omega
  have hmod : Fin.ofNat 512 (512 * k + i) = Fin.ofNat 512 i := by
    apply Fin.ext
    show (512 * k + i) % 512 = i % 512
    omega
  rw [hdiv, hmod]

/-- The sector that is being written may hold anything. -/
theorem Moved.put {q : BlkRequest n} {y : Sector} (h : Moved s₀ q drive start k s)
    (hcmd : q.cmd = BLK_WRITE) (hk : k ≤ 1) (hmem : s'.mem = s.mem)
    (hdisks : s'.disks =
      Function.update s.disks drive (Function.update (s.disks drive) (start + k) y)) :
    Moved s₀ q drive start k s' := by
  have hother : ∀ l ≠ start + k, s'.disks drive l = s.disks drive l := by
    intro l hl
    rw [hdisks, Function.update_self, Function.update_of_ne hl]
  refine ⟨hmem ▸ h.mem, fun hw j hj => ?_, fun d l hd => ?_⟩
  · rw [hother _ (by omega), h.written hw j hj]
  · rw [← h.kept d l hd]
    by_cases hdrive : d = drive
    · subst hdrive
      have hl := hd hcmd rfl
      exact hother l (by omega)
    · rw [hdisks, Function.update_of_ne hdrive]

/-- One sector more was written. -/
theorem Moved.write_sector {q : BlkRequest n} (h : Moved s₀ q drive start k s)
    (hcmd : q.cmd = BLK_WRITE) (hk : k ≤ 1) (hmem : s'.mem = s.mem)
    (hdisks : s'.disks = Function.update s.disks drive (Function.update (s.disks drive)
      (start + k) (portWrite s₀.mem (q.buffer + BitVec.ofNat 32 (512 * k))))) :
    Moved s₀ q drive start (k + 1) s' := by
  have hput := h.put hcmd hk hmem hdisks
  refine ⟨?_, fun hw j hj => ?_, hput.kept⟩
  · rw [hput.mem, hcmd]
    rfl
  · by_cases hjk : j = k
    · rw [hjk, hdisks, Function.update_self, Function.update_self]
    · exact hput.written hw j (by omega)

/-- The request moves on by a sector. -/
theorem Rest.advance {q q' q'' : BlkRequest n} (h : Rest q k q') (hk : k ≤ 1)
    (hdev : q''.dev = q'.dev) (hcmd : q''.cmd = q'.cmd) (hsector : q''.sector = q'.sector + 1)
    (hnr : q''.nrSector = q'.nrSector - 1) (hbuffer : q''.buffer = q'.buffer + 512) :
    Rest q (k + 1) q'' := by
  refine ⟨hdev.trans h.dev, hcmd.trans h.cmd, ?_, ?_, ?_⟩
  · rw [hsector, h.sector, BitVec.add_assoc, BitVec.ofNat_add]
    rfl
  · rw [hnr, h.nrSector]
    obtain rfl | rfl : k = 0 ∨ k = 1 := by omega
    · rfl
    · rfl
  · rw [hbuffer, h.buffer, BitVec.add_assoc, Nat.mul_succ, BitVec.ofNat_add]
    rfl

/-- Whether this was the last sector is what `nr_sector` says. -/
theorem Rest.last {q q' : BlkRequest n} (h : Rest q k q') (hk : k ≤ 1) :
    q'.nrSector - 1 ≠ 0 ↔ k = 0 := by
  rw [h.nrSector]
  obtain rfl | rfl : k = 0 ∨ k = 1 := by omega
  · decide
  · decide

theorem Moved.retire (h : Moved s₀ (s₀.dev.request r) drive start 2 s)
    (hreq : s.currReq = some r) (hretired : s.retired = s₀.retired)
    (he : s.endRequest true = some s') : Outcome s₀ r drive start s' := by
  obtain ⟨hmem, hdisks, hr⟩ := Hd.endRequest_eq hreq he
  exact Or.inr ⟨true, 2, hretired ▸ hr, fun _ => rfl, Nat.le_refl 2, h.congr hmem hdisks⟩

theorem Progress.readIntr {status : BitVec 8} (h : Progress s₀ r drive start k s)
    (hcmd : (s₀.dev.request r).cmd = BLK_READ) (hrep : s.repeating = true)
    (hdata : cmdResult status = false → s.ctl.data = s.disks drive (start + k) ∧
      s.ctl.job = .read drive (start + k + 1) (1 - k))
    (hr : s.readIntr status = some s') : Outcome s₀ r drive start s' := by
  rw [Hd.readIntr] at hr
  split at hr
  · exact h.badRwIntr hrep hr
  rename_i hok
  obtain ⟨hdata, hjob⟩ := hdata (Bool.eq_false_iff.mpr hok)
  have hmoved : ∀ t : Hd n, t.mem = portRead s.mem (s.dev.request r).buffer s.ctl.data →
      t.disks = s.disks → Moved s₀ (s₀.dev.request r) drive start (k + 1) t := by
    intro t hmem hdisks
    rw [h.rest.buffer, hdata] at hmem
    exact h.toMoved.read_sector hcmd hmem hdisks
  rw [h.head, Option.bind_some] at hr
  dsimp only at hr
  rw [Hd.setReq_self] at hr
  split at hr
  · rename_i hnr
    obtain rfl := (h.rest.last h.le).mp hnr
    cases hr
    refine Or.inl ⟨1, ⟨hmoved _ rfl rfl, h.head, ?_, Nat.le_refl 1, h.retired⟩, Or.inr ?_⟩
    · dsimp only
      rw [Hd.setReq_self]
      exact h.rest.advance h.le rfl rfl rfl rfl rfl
    · show Awaits _ _ _ _ _ s.ctl.job _
      rw [hjob]
      exact Awaits.read hcmd
  · rename_i hnr
    obtain rfl : k = 1 := by
      have hk := h.le
      have hne := mt (h.rest.last h.le).mpr hnr
      omega
    refine Moved.retire ?_ ?_ ?_ hr
    · exact hmoved _ rfl rfl
    · exact h.head
    · exact h.retired

/-- The data of the sector is on the disk when `write_intr` is called. -/
theorem Progress.writeIntr {status : BitVec 8} (h : Progress s₀ r drive start k s)
    (hcmd : (s₀.dev.request r).cmd = BLK_WRITE) (hrep : s.repeating = true)
    (hdata : cmdResult status = false → Moved s₀ (s₀.dev.request r) drive start (k + 1) s ∧
      s.ctl.job = .write drive (start + k + 1) (1 - k) none)
    (hw : s.writeIntr status = some s') : Outcome s₀ r drive start s' := by
  rw [Hd.writeIntr] at hw
  split at hw
  · exact h.badRwIntr hrep hw
  rename_i hok
  obtain ⟨hmoved, hjob⟩ := hdata (Bool.eq_false_iff.mpr hok)
  rw [h.head, Option.bind_some] at hw
  dsimp only at hw
  rw [Hd.setReq_self] at hw
  split at hw
  · rename_i hnr
    obtain rfl := (h.rest.last h.le).mp hnr
    cases hw
    have hrest : Rest (s₀.dev.request r) 1 (((s.setReq r fun q =>
        { q with nrSector := q.nrSector - 1 }).setReq r fun q =>
          { q with sector := q.sector + 1, buffer := q.buffer + 512 }).dev.request r) := by
      rw [Hd.setReq_self, Hd.setReq_self]
      exact h.rest.advance h.le rfl rfl rfl rfl rfl
    refine Or.inl ⟨1, ⟨hmoved.congr rfl rfl, h.head, hrest, Nat.le_refl 1, h.retired⟩, Or.inr ?_⟩
    show Awaits _ _ _ _ _ (Controller.give s.ctl (portWrite s.mem _)).job _
    rw [give_job hjob, hrest.buffer, h.mem_of_write hcmd]
    exact Awaits.write hcmd
  · rename_i hnr
    obtain rfl : k = 1 := by
      have hk := h.le
      have hne := mt (h.rest.last h.le).mpr hnr
      omega
    refine Moved.retire ?_ ?_ ?_ hw
    · exact hmoved.congr rfl rfl
    · exact h.head
    · exact h.retired

/-- An interrupt finds what the driver was waiting for. -/
theorem Underway.intr {status : BitVec 8} {junk : Sector} (h : Underway s₀ r drive start k s)
    (hs : s.next D (.intr status junk) = some s') : Outcome s₀ r drive start s' := by
  rw [Hd.next] at hs
  split at hs
  · cases hs
  rename_i hrest
  obtain ⟨⟨ctl, disks⟩, hc, hi⟩ := Option.bind_eq_some_iff.mp hs
  have hk := h.le
  have haw := h.awaits.resolve_left hrest
  generalize hjob : s.ctl.job = job at haw
  generalize hdo : s.doHd = f at haw
  cases haw with
  | recal =>
    obtain rfl := interrupt_noData hjob hc
    simp only [Hd.hdInterrupt, hdo] at hi
    have hp : Progress s₀ r drive start k
        { s with ctl := ctl, doHd := none, repeating := true } := h.congr rfl rfl rfl rfl
    rw [Hd.recalIntr] at hi
    split at hi
    · exact hp.badRwIntr rfl hi
    · cases hi
      exact Or.inl ⟨k, hp, Or.inl rfl⟩
  | read hcmd =>
    rw [show 2 - k = 1 - k + 1 by omega] at hjob
    obtain ⟨rfl, hdata⟩ := interrupt_read hjob hc
    simp only [Hd.hdInterrupt, hdo] at hi
    refine Progress.readIntr (k := k) ?_ hcmd rfl hdata hi
    exact h.congr rfl rfl rfl rfl
  | write hcmd =>
    rw [show 2 - k = 1 - k + 1 by omega] at hjob
    obtain ⟨y, rfl, hdata⟩ := interrupt_write hjob hc
    simp only [Hd.hdInterrupt, hdo] at hi
    refine Progress.writeIntr (k := k) ?_ hcmd rfl (fun hok => ?_) hi
    · exact ⟨h.toMoved.put hcmd hk rfl rfl, h.head, h.rest, hk, h.retired⟩
    · obtain ⟨rfl, hnext⟩ := hdata hok
      exact ⟨h.toMoved.write_sector hcmd hk rfl rfl, hnext⟩

/-! ### Turns -/

theorem Progress.turn {ready polls : List (BitVec 8)} {b : U32} {part : HdStruct}
    (h : Progress s₀ r drive (part.sectorOf b) k s) (hrep : s.repeating = true)
    (hin : D.Inside (s₀.dev.request r).dev b drive part)
    (hsector : (s₀.dev.request r).sector = b * 2)
    (ht : s.doHdRequest D ready polls = some s') :
    Outcome s₀ r drive (part.sectorOf b) s' := by
  rw [Hd.doHdRequest, h.head] at ht
  dsimp only at ht
  rw [h.rest.dev, hin.find] at ht
  split at ht
  · cases ht
  split at ht
  · cases ht
  dsimp only at ht
  split at ht
  · exact h.endRequest ht
  · rw [h.rest.sector, hsector] at ht
    obtain ⟨habs, hsize⟩ := hin.absBlock h.le
    exact h.issue hrep hin.geometry habs (habs ▸ hsize) ht

end steps

/-! ## Runs -/

/-- Request `r` is at the head of the queue as `make_request` filled it, for block `b` and
the buffer at `a`, and `do_hd_request` is to look at it. -/
structure AtHead (s : Hd n) (r : Slot) (b a : U32) : Prop where
  head : s.currReq = some r
  sector : (s.dev.request r).sector = b * 2
  nrSector : (s.dev.request r).nrSector = 2
  buffer : (s.dev.request r).buffer = a
  repeating : s.repeating = true

section runs

variable {s₀ s s' : Hd n} {r : Slot} {b a : U32} {drive : Drive} {part : HdStruct}
  {act : HdAct} {acts : List HdAct}

theorem AtHead.underway (h : AtHead s₀ r b a) (start : Nat) :
    Underway s₀ r drive start 0 s₀ := by
  refine ⟨⟨⟨?_, fun _ j hj => absurd hj (Nat.not_lt_zero j), fun _ _ _ => rfl⟩, h.head,
    ⟨rfl, rfl, ?_, h.nrSector, ?_⟩, Nat.zero_le 1, rfl⟩, Or.inl h.repeating⟩
  · split <;> rfl
  · exact (BitVec.add_zero _).symm
  · exact (BitVec.add_zero _).symm

theorem Underway.step {k : Nat} (h : Underway s₀ r drive (part.sectorOf b) k s)
    (hin : D.Inside (s₀.dev.request r).dev b drive part)
    (hsector : (s₀.dev.request r).sector = b * 2) (hs : Hd.Step D s act s') :
    Outcome s₀ r drive (part.sectorOf b) s' := by
  cases act with
  | turn ready polls =>
    rw [Hd.Step, Steps, Hd.next] at hs
    split at hs
    · rename_i hrep
      exact h.toProgress.turn hrep hin hsector hs
    · cases hs
  | intr status junk => exact h.intr hs

/-- As long as the request is not retired, its transfer is under way. -/
theorem underway_run (h₀ : AtHead s₀ r b a)
    (hin : D.Inside (s₀.dev.request r).dev b drive part)
    (h : Run (Hd.Step D) s₀ acts s) (hretired : s.retired = s₀.retired) :
    ∃ k, Underway s₀ r drive (part.sectorOf b) k s := by
  induction h with
  | nil => exact ⟨0, h₀.underway _⟩
  | @snoc acts t u act hrun hs ih =>
    have hbefore : t.retired = s₀.retired := by
      have hfirst := Hd.retired_run hrun
      have hlast := Hd.retired_step hs
      rw [hretired] at hlast
      exact hlast.eq_of_length_le hfirst.length_le
    obtain ⟨k, hk⟩ := ih hbefore
    rcases hk.step hin h₀.sector hs with hunder | ⟨ok, j, hr, -⟩
    · exact hunder
    · rw [hretired] at hr
      exact absurd hr (by simp)

/-- Whatever the controller does until request `r` is retired: memory outside its buffer and
sectors outside its block stay as they are, a read leaves the disks alone and a write the
memory; and if `r` is retired with success, the buffer of a read has the two sectors of the
block, and after a write the two sectors have the buffer. -/
theorem transfer_correct (h₀ : AtHead s₀ r b a)
    (hin : D.Inside (s₀.dev.request r).dev b drive part)
    (hrun : Run (Hd.Step D) s₀ acts s) (hretired : s.retired = s₀.retired)
    (hs : Hd.Step D s act s') :
    (∀ p, ((s₀.dev.request r).cmd = BLK_READ → 1024 ≤ (p - a).toNat) →
      s'.mem p = s₀.mem p) ∧
    (∀ d l, ((s₀.dev.request r).cmd = BLK_WRITE → d = drive →
      l ≠ part.sectorOf b ∧ l ≠ part.sectorOf b + 1) → s'.disks d l = s₀.disks d l) ∧
    (s'.retired = s₀.retired ∨ ∃ ok, s'.retired = s₀.retired ++ [(r, ok)] ∧ (ok = true →
      ((s₀.dev.request r).cmd = BLK_READ → ∀ k < 2, ∀ i : Fin 512,
        s'.mem (a + BitVec.ofNat 32 (512 * k + i)) =
          s'.disks drive (part.sectorOf b + k) i) ∧
      ((s₀.dev.request r).cmd = BLK_WRITE → ∀ k < 2, ∀ i : Fin 512,
        s'.disks drive (part.sectorOf b + k) i =
          s'.mem (a + BitVec.ofNat 32 (512 * k + i))))) := by
  obtain ⟨k, hk⟩ := underway_run h₀ hin hrun hretired
  have houtcome := hk.step hin h₀.sector hs
  obtain ⟨j, hj, hmoved⟩ : ∃ j ≤ 2,
      Moved s₀ (s₀.dev.request r) drive (part.sectorOf b) j s' := by
    rcases houtcome with ⟨j, hj⟩ | ⟨-, j, -, -, hj, hmoved⟩
    · exact ⟨j, Nat.le_succ_of_le hj.le, hj.toMoved⟩
    · exact ⟨j, hj, hmoved⟩
  refine ⟨fun p hp => ?_, hmoved.kept, ?_⟩
  · rw [hmoved.mem]
    split
    · rename_i hcmd
      have hout := hp hcmd
      rw [h₀.buffer, copyIn_apply (by omega), if_neg (by omega)]
    · rfl
  · rcases houtcome with ⟨j, hj⟩ | ⟨ok, j, hr, hok, -, hmoved⟩
    · exact Or.inl hj.retired
    · refine Or.inr ⟨ok, hr, fun hsucc => ?_⟩
      obtain rfl := hok hsucc
      rw [← h₀.buffer]
      exact ⟨hmoved.read, hmoved.write⟩

end runs

/-! ## A read that fails half way

Block 5 of the first partition is read after a reset.  The first sector comes, the command
fails at the second one, and the driver reads that one again by itself. -/

namespace SecondSectorFails

def drives : Drives where
  numberOfHd := 1
  hdHw _ := { head := 4, sect := 17, cyl := 100, wpcom := 0, ctl := 8 }
  hd _ := { startSect := 63, nrSects := 2000 }
  numberOfHd_le := by decide

def cache : Cache 1 :=
  (Cache.bufferInit 0x200000 fun _ => 0).store (some 0) fun h =>
    { h with bDev := 0x301, bBlocknr := 5, bCount := 1, bLock := 1 }

def start : Hd 1 where
  dev := (BlkDev.static.blkReqInit.hdInit.fill 31 BLK_READ 0 (cache.bh 0)).addRequest .linking
    BLK_DEV_NUM_HD 31 |>.getD BlkDev.static
  cache := cache
  mem _ := 0
  reset := true
  recalibrate := true
  doHd := none
  ctl := { ports := fun _ => 0, data := fun _ => 0, job := .idle }
  disks _ l i := .ofNat 8 (l + i.val)
  repeating := true
  retired := []

def turn : HdAct := .turn [0x40] []
def good : HdAct := .intr 0x50 fun _ => 0
def bad : HdAct := .intr 0x51 fun _ => 0

def acts : List HdAct := [turn, good, turn, good, turn, good, bad, turn]

def before : Hd 1 := (replay (Hd.next drives) start acts).getD start

def after : Hd 1 := (before.next drives good).getD before

end SecondSectorFails

theorem transfer_correct_second_sector_fails :
    SecondSectorFails.after.retired = [(31, true)] ∧ ∀ k < 2, ∀ i : Fin 512,
      SecondSectorFails.after.mem (0x1FFC00 + BitVec.ofNat 32 (512 * k + i)) =
        SecondSectorFails.after.disks 0 (73 + k) i := by
  have hrun : Run (Hd.Step SecondSectorFails.drives) SecondSectorFails.start
      SecondSectorFails.acts SecondSectorFails.before := run_replay (by decide +kernel)
  have hstep : Hd.Step SecondSectorFails.drives SecondSectorFails.before SecondSectorFails.good
      SecondSectorFails.after := by
    have hsome : (SecondSectorFails.before.next SecondSectorFails.drives
        SecondSectorFails.good).isSome := by decide +kernel
    obtain ⟨t, ht⟩ := Option.isSome_iff_exists.mp hsome
    rw [SecondSectorFails.after, ht]
    exact ht
  have hin : SecondSectorFails.drives.Inside 0x301 5 0 ⟨63, 2000⟩ :=
    ⟨rfl, ⟨by decide, by decide, by decide, by decide, by decide⟩, by decide, by decide⟩
  have hretired : SecondSectorFails.after.retired = [(31, true)] := by decide +kernel
  have hcorrect := transfer_correct (b := 5) (a := 0x1FFC00) (r := 31) ⟨rfl, rfl, rfl, rfl, rfl⟩
    hin hrun (by decide +kernel) hstep
  rcases hcorrect.2.2 with hnone | ⟨ok, hr, hdone⟩
  · exact absurd (hretired.symm.trans hnone) (by decide)
  · cases hretired.symm.trans hr
    exact ⟨hretired, (hdone rfl).1 rfl⟩

end Driver
end CherryOS
