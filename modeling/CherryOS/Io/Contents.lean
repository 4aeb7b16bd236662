import CherryOS.Driver.Transfer
import CherryOS.Io.Flags

/-!
# What the blocks hold

Cache and disk together are one array of blocks.  What a block holds is in its buffer while
that is up to date and on the disk otherwise, whatever the tasks do and in whatever order the
requests complete; a buffer that is clean and not locked may be given to another block, for
then the disk has the block too.

A buffer's data are the 1024 bytes at its `b_data`.  They move when the request completes: a
read or a write that fails may leave anything in the sectors it was for, and a block whose
write failed holds what the disk has.
-/

namespace CherryOS

open Kernel (U32)
open Fs (BufferHead Cache)
open Driver
open Lib

namespace Driver

/-! ## Blocks on the disk -/

/-- The two sectors of a block. -/
abbrev Block := Fin 2 → Sector

def blockAt (disks : Disks) (p : Drive × Nat) : Block := fun j => disks p.1 (p.2 + j)

def putBlock (disks : Disks) (p : Drive × Nat) (x : Block) : Disks := fun d l =>
  if d = p.1 ∧ p.2 ≤ l ∧ l < p.2 + 2 then x (Fin.ofNat 2 (l - p.2)) else disks d l

/-- Two blocks have no sector in common. -/
def Apart (p p' : Drive × Nat) : Prop := p.1 = p'.1 → p.2 + 2 ≤ p'.2 ∨ p'.2 + 2 ≤ p.2

/-- Where `do_hd_request` goes for a request, unless it refuses it. -/
def Drives.place (D : Drives) (dev sector : U32) : Option (Drive × Nat) :=
  (D.find ((MINOR dev).setWidth 8)).bind fun (drive, part) =>
    if part.nrSects < sector + 2 then none else some (drive, (sector + part.startSect).toNat)

/-- Where a block is: `make_request` doubles its number. -/
def Drives.home (D : Drives) (k : U32 × U32) : Option (Drive × Nat) := D.place k.1 (k.2 * 2)

/-- The blocks that are used have places on the disks, each its own. -/
structure Separate (D : Drives) (K : Set (U32 × U32)) : Prop where
  placed : ∀ k ∈ K, ∃ p, D.home k = some p
  apart : ∀ k ∈ K, ∀ k' ∈ K, k ≠ k' → ∀ p p', D.home k = some p → D.home k' = some p' → Apart p p'

theorem blockAt_putBlock (disks : Disks) (p : Drive × Nat) (x : Block) :
    blockAt (putBlock disks p x) p = x := by
  funext j
  have hj := j.isLt
  have hin : p.1 = p.1 ∧ p.2 ≤ p.2 + j.val ∧ p.2 + j.val < p.2 + 2 := ⟨rfl, by omega, by omega⟩
  rw [blockAt, putBlock, if_pos hin]
  congr 1
  apply Fin.ext
  show (p.2 + j.val - p.2) % 2 = j.val
  omega

theorem blockAt_apart {p p' : Drive × Nat} (h : Apart p p') (disks : Disks) (x : Block) :
    blockAt (putBlock disks p' x) p = blockAt disks p := by
  funext j
  have hj := j.isLt
  have hout : ¬ (p.1 = p'.1 ∧ p'.2 ≤ p.2 + j.val ∧ p.2 + j.val < p'.2 + 2) := by
    intro hin
    have := h hin.1
    omega
  rw [blockAt, putBlock, if_neg hout, blockAt]

end Driver

namespace Io

variable {n : Nat} {Task : Type} [DecidableEq Task] {mode : AddMode}

/-! ## The system with its data -/

/-- What the buffers and the disks hold, and what each block holds. -/
structure Blocks (n : Nat) where
  data : Fin n → Block
  disks : Disks
  content : U32 × U32 → Block

structure Volume (n : Nat) (Task : Type) extends Blocks n where
  sys : System n Task

/-- What a request `q` for block `k` with buffer `b` has moved when it completes. -/
inductive Transfer (D : Drives) (q : BlkRequest n) (b : Fin n) (k : U32 × U32) (v : Blocks n) :
    Bool → Blocks n → Prop
  | read {p : Drive × Nat} (hcmd : q.cmd = BLK_READ) (hp : D.place q.dev q.sector = some p) :
      Transfer D q b k v true { v with data := Function.update v.data b (blockAt v.disks p) }
  | write {p : Drive × Nat} (hcmd : q.cmd = BLK_WRITE) (hp : D.place q.dev q.sector = some p) :
      Transfer D q b k v true { v with disks := putBlock v.disks p (v.data b) }
  | readFailed (hcmd : q.cmd = BLK_READ) (x : Block) :
      Transfer D q b k v false { v with data := Function.update v.data b x }
  | writeFailed {p : Drive × Nat} (hcmd : q.cmd = BLK_WRITE)
      (hp : D.place q.dev q.sector = some p) (x : Block) :
      Transfer D q b k v false
        { v with disks := putBlock v.disks p x, content := Function.update v.content k x }
  | writeRefused (hcmd : q.cmd = BLK_WRITE) (hp : D.place q.dev q.sector = none) :
      Transfer D q b k v false v

inductive Event (n : Nat) (Task : Type)
  | act (a : Act n Task)
  /-- A task stores `x` in the buffer and makes it dirty. -/
  | put (b : Fin n) (x : Block)

/-- What tasks do in the calls of the cache. -/
def Act.Calls : Act n Task → Prop
  | .call .. | .go _ | .step _ => True
  | _ => False

instance (a : Act n Task) : Decidable a.Calls :=
  match a with
  | .call .. | .go _ | .step _ => isTrue trivial
  | .intr _ | .setDirt .. | .setUptodate .. => isFalse id

inductive Volume.Step (D : Drives) (mode : AddMode) (v : Volume n Task) :
    Event n Task → Volume n Task → Prop
  | act {a : Act n Task} {s : System n Task} (ha : a.Calls) (hs : v.sys.next mode a = some s) :
      Step D mode v (.act a) { v with sys := s }
  | intr {ok : Bool} {s : System n Task} {req : Slot} {b : Fin n} {blocks : Blocks n}
      (hs : v.sys.next mode (.intr ok) = some s)
      (hreq : v.sys.mem.dev.reqQ BLK_DEV_NUM_HD = some req)
      (hb : (v.sys.mem.dev.request req).bh = some b)
      (ht : Transfer D (v.sys.mem.dev.request req) b (v.sys.mem.cache.bh b).key v.toBlocks ok
        blocks) :
      Step D mode v (.act (.intr ok)) ⟨blocks, s⟩
  | put {b : Fin n} {x : Block} {s : System n Task} (hs : v.sys.next mode (.setDirt b 1) = some s) :
      Step D mode v (.put b x)
        ⟨⟨Function.update v.data b x, v.disks,
          Function.update v.content (v.sys.mem.cache.bh b).key x⟩, s⟩

/-- Callers store in buffers that are up to date and not locked. -/
def Volume.Careful (K : Set (U32 × U32)) (v : Volume n Task) : Event n Task → Prop
  | .act a => Io.Careful K v.sys a
  | .put b _ => Io.Careful K v.sys (.setDirt b 1)

/-! ## What the driver moves -/

/-- The block in the memory from `a` on. -/
def blockIn (mem : Memory) (a : U32) : Block := fun j =>
  portWrite mem (a + BitVec.ofNat 32 (512 * j))

theorem place_of_inside {D : Drives} {dev b : U32} {drive : Drive} {part : HdStruct}
    (h : D.Inside dev b drive part) : D.place dev (b * 2) = some (drive, part.sectorOf b) := by
  have hblock := h.block_le
  have htest : ¬ part.nrSects < b * 2 + 2 := by
    have htwo : (2 : U32).toNat = 2 := rfl
    have hlt := part.nrSects.isLt
    rw [BitVec.lt_def, BitVec.toNat_add, BitVec.toNat_mul, htwo]
    omega
  have habs := (h.absBlock (Nat.zero_le 1)).1
  have hzero : b * 2 + BitVec.ofNat 32 0 = b * 2 := BitVec.add_zero _
  rw [hzero, Nat.add_zero] at habs
  rw [Drives.place, h.find, Option.bind_some]
  show (if part.nrSects < b * 2 + 2 then none
    else some (drive, (b * 2 + part.startSect).toNat)) = _
  rw [if_neg htest, habs]

section driver

variable {D : Drives} {s₀ s s' : Hd n} {r : Slot} {b a : U32} {drive : Drive} {part : HdStruct}
  {act : HdAct} {acts : List HdAct} {w : Blocks n} {x : Fin n} {key : U32 × U32}

theorem transfer_of_moved {q : BlkRequest n} {start k : Nat} {ok : Bool}
    (h : Moved s₀ q drive start k s) (hcmd : q.cmd = BLK_READ ∨ q.cmd = BLK_WRITE)
    (hp : D.place q.dev q.sector = some (drive, start)) (hok : ok = true → k = 2)
    (hdisks : w.disks = s₀.disks) (hdata : w.data x = blockIn s₀.mem q.buffer) :
    ∃ w', Transfer D q x key w ok w' ∧ w'.disks = s.disks ∧
      w'.data x = blockIn s.mem q.buffer ∧ ∀ y, y ≠ x → w'.data y = w.data y := by
  have hother : ∀ (z : Block) y, y ≠ x → Function.update w.data x z y = w.data y :=
    fun _ _ hy => Function.update_of_ne hy ..
  rcases hcmd with hread | hwrite
  · have hne : q.cmd ≠ BLK_WRITE := by
      rw [hread]
      decide
    have hkept : s.disks = s₀.disks := funext fun d => funext fun l =>
      h.kept d l fun hc => absurd hc hne
    cases ok with
    | true =>
      obtain rfl := hok rfl
      refine ⟨_, .read hread hp, hdisks.trans hkept.symm, ?_, hother _⟩
      show Function.update w.data x _ x = _
      rw [Function.update_self, hdisks, ← hkept]
      funext j i
      rw [blockAt, ← h.read hread j j.isLt i, blockIn, portWrite, BitVec.add_assoc,
        BitVec.ofNat_add]
    | false =>
      refine ⟨_, .readFailed hread (blockIn s.mem q.buffer), hdisks.trans hkept.symm, ?_,
        hother _⟩
      exact Function.update_self ..
  · have hmem : s.mem = s₀.mem := h.mem_of_write hwrite
    have hkept : ∀ z : Block, z = blockAt s.disks (drive, start) →
        putBlock w.disks (drive, start) z = s.disks := by
      intro z hz
      funext d l
      rw [putBlock]
      by_cases hin : d = drive ∧ start ≤ l ∧ l < start + 2
      · obtain ⟨rfl, hle, hlt⟩ := hin
        have hl : start + (l - start) % 2 = l := by omega
        rw [if_pos ⟨rfl, hle, hlt⟩, hz, blockAt]
        show s.disks d (start + (l - start) % 2) = _
        rw [hl]
      · have hout := h.kept d l fun _ hd => by
          refine ⟨fun hl => hin ⟨hd, by omega, by omega⟩, fun hl => hin ⟨hd, by omega, by omega⟩⟩
        rw [if_neg hin, hdisks, hout]
    cases ok with
    | true =>
      obtain rfl := hok rfl
      refine ⟨_, .write hwrite hp, hkept _ ?_, by rw [hmem]; exact hdata, fun _ _ => rfl⟩
      rw [hdata]
      funext j
      exact (h.written hwrite j j.isLt).symm
    | false =>
      refine ⟨_, .writeFailed hwrite hp (blockAt s.disks (drive, start)), hkept _ rfl, ?_,
        fun _ _ => rfl⟩
      rw [hmem]
      exact hdata

/-- From the turn that finds a request at the head of the queue to the one that retires it,
the driver makes one such transfer. -/
theorem transfer_of_driver {ok : Bool} (h₀ : AtHead s₀ r b a)
    (hin : D.Inside (s₀.dev.request r).dev b drive part)
    (hcmd : (s₀.dev.request r).cmd = BLK_READ ∨ (s₀.dev.request r).cmd = BLK_WRITE)
    (hrun : Run (Hd.Step D) s₀ acts s) (hretired : s.retired = s₀.retired)
    (hs : Hd.Step D s act s') (hr : s'.retired = s₀.retired ++ [(r, ok)])
    (hdisks : w.disks = s₀.disks) (hdata : w.data x = blockIn s₀.mem a) :
    ∃ w', Transfer D (s₀.dev.request r) x key w ok w' ∧ w'.disks = s'.disks ∧
      w'.data x = blockIn s'.mem a ∧ ∀ y, y ≠ x → w'.data y = w.data y := by
  obtain ⟨k, hk⟩ := underway_run h₀ hin hrun hretired
  have hplace : D.place (s₀.dev.request r).dev (s₀.dev.request r).sector =
      some (drive, part.sectorOf b) := by
    rw [h₀.sector]
    exact place_of_inside hin
  rw [← h₀.buffer] at hdata ⊢
  rcases hk.step hin h₀.sector hs with ⟨j, hj⟩ | ⟨ok', j, hr', hok, _, hmoved⟩
  · have hold := hj.retired
    rw [hr] at hold
    exact absurd hold (by simp)
  · have heq : ok' = ok := by
      rw [hr, List.append_cancel_left_eq] at hr'
      cases hr'
      rfl
    exact transfer_of_moved hmoved hcmd hplace (heq ▸ hok) hdisks hdata

end driver

/-! ## The invariant -/

/-- A buffer of the block that is up to date has what the block holds, and the disk has it
unless such a buffer is dirty or locked. -/
structure Holds (D : Drives) (m : Mem n) (v : Blocks n) (k : U32 × U32) : Prop where
  cached : ∀ b, (m.cache.bh b).bUptodate ≠ 0 → (m.cache.bh b).key = k → v.data b = v.content k
  stored : (∀ b, (m.cache.bh b).bUptodate ≠ 0 → (m.cache.bh b).key = k →
      (m.cache.bh b).bDirt = 0 ∧ (m.cache.bh b).bLock = 0) →
    ∀ p, D.home k = some p → blockAt v.disks p = v.content k

def Agrees (D : Drives) (K : Set (U32 × U32)) (m : Mem n) (v : Blocks n) : Prop :=
  ∀ k ∈ K, Holds D m v k

/-- A step that makes no buffer up to date, and takes only clean ones that nobody has locked. -/
structure Harmless (m m' : Mem n) : Prop where
  back : ∀ b, (m'.cache.bh b).bUptodate ≠ 0 →
    (m.cache.bh b).bUptodate ≠ 0 ∧ (m'.cache.bh b).key = (m.cache.bh b).key
  clean : ∀ b, (m'.cache.bh b).bUptodate ≠ 0 → (m'.cache.bh b).bDirt = 0 →
    (m'.cache.bh b).bLock = 0 → (m.cache.bh b).bDirt = 0 ∧ (m.cache.bh b).bLock = 0
  kept : ∀ b, (m.cache.bh b).bUptodate ≠ 0 →
    ((m'.cache.bh b).bUptodate ≠ 0 ∧ (m'.cache.bh b).key = (m.cache.bh b).key) ∨
      (m.cache.bh b).bDirt = 0 ∧ (m.cache.bh b).bLock = 0

theorem Harmless.of_flags {m m' : Mem n}
    (hup : ∀ b, (m'.cache.bh b).bUptodate = (m.cache.bh b).bUptodate)
    (hkey : ∀ b, (m'.cache.bh b).key = (m.cache.bh b).key)
    (hclean : ∀ b, (m'.cache.bh b).bDirt = 0 → (m'.cache.bh b).bLock = 0 →
      (m.cache.bh b).bDirt = 0 ∧ (m.cache.bh b).bLock = 0) : Harmless m m' where
  back b hb := ⟨hup b ▸ hb, hkey b⟩
  clean b _ := hclean b
  kept b hb := Or.inl ⟨(hup b).symm ▸ hb, hkey b⟩

theorem Harmless.of_cache {m m' : Mem n} (h : m'.cache = m.cache) : Harmless m m' := by
  refine .of_flags (fun b => ?_) (fun b => ?_) fun b hdirt hlock => ?_
  · rw [h]
  · rw [h]
  · rw [h] at hdirt hlock
    exact ⟨hdirt, hlock⟩

/-- Of one head only a count changes. -/
theorem Harmless.count (m : Mem n) (b : Fin n) {f : BufferHead n → BufferHead n}
    (hf : ∀ h, (f h).bUptodate = h.bUptodate ∧ (f h).key = h.key ∧ (f h).bDirt = h.bDirt ∧
      (f h).bLock = h.bLock) : Harmless m (m.store b f) := by
  refine .of_flags (fun x => ?_) (fun x => ?_) fun x hdirt hlock => ?_
  · exact Mem.store_keeps (g := fun h => h.bUptodate) (fun h => (hf h).1) m b x
  · exact Mem.store_keeps (g := fun h => h.key) (fun h => (hf h).2.1) m b x
  · rw [Mem.store_keeps (g := fun h => h.bDirt) (fun h => (hf h).2.2.1) m b x] at hdirt
    rw [Mem.store_keeps (g := fun h => h.bLock) (fun h => (hf h).2.2.2) m b x] at hlock
    exact ⟨hdirt, hlock⟩

/-- One head is claimed that was clean and that nobody had locked. -/
theorem Harmless.claim {m : Mem n} {c : Cache n} {b : Fin n} {dev block : U32}
    (hcl : m.cache.Claimed b dev block c) (hdirt : (m.cache.bh b).bDirt = 0)
    (hlock : (m.cache.bh b).bLock = 0) : Harmless m { m with cache := c } := by
  have hnew : ∀ x, (c.bh x).bUptodate ≠ 0 → x ≠ b := by
    intro x hx hxb
    rw [hxb] at hx
    exact hx hcl.self.bUptodate
  refine ⟨fun x hx => ?_, fun x hx hd hl => ?_, fun x hx => ?_⟩
  · have hother := hcl.other x (hnew x hx)
    exact ⟨hother.bUptodate ▸ hx, hother.key⟩
  · have hother := hcl.other x (hnew x hx)
    exact ⟨hother.bDirt ▸ hd, hother.bLock ▸ hl⟩
  · by_cases hxb : x = b
    · subst hxb
      exact Or.inr ⟨hdirt, hlock⟩
    · have hother := hcl.other x hxb
      left
      show (c.bh x).bUptodate ≠ 0 ∧ (c.bh x).key = (m.cache.bh x).key
      rw [hother.bUptodate, hother.key]
      exact ⟨hx, rfl⟩

/-- A request clears the dirty flag of a buffer that is locked. -/
theorem Harmless.request {m m' : Mem n} {rw : U32} {b : Fin n} {k : Major} {req : Slot}
    (h : m.request mode rw b k req = some m') (hlock : (m.cache.bh b).bLock ≠ 0) :
    Harmless m m' := by
  have hcases : ∀ x, x = b ∧ m'.cache.bh x = { m.cache.bh x with bDirt := 0 } ∨
      m'.cache.bh x = m.cache.bh x := by
    intro x
    by_cases hxb : x = b
    · subst hxb
      exact Or.inl ⟨rfl, fill_self h⟩
    · exact Or.inr (fill_other h hxb)
  refine .of_flags (fun x => ?_) (fun x => ?_) fun x hd hl => ?_
  · rcases hcases x with ⟨_, hx⟩ | hx <;> rw [hx]
  · rcases hcases x with ⟨_, hx⟩ | hx <;> rw [hx]
    rfl
  · rcases hcases x with ⟨hxb, hx⟩ | hx <;> rw [hx] at hd hl
    · subst hxb
      exact absurd hl hlock
    · exact ⟨hd, hl⟩

theorem Flow.harmless {m m' : Mem n} {p : Pc n} {nx : Next n} (h : Flow mode m p m' nx)
    (hwf : m.cache.WellFormed)
    (hclaim : ∀ w b, p = .claim w b → (m.cache.bh b).bDirt = 0 ∧ (m.cache.bh b).bLock = 0)
    (hfill : ∀ caller rw b k req, p = .fill caller rw b k req → (m.cache.bh b).bLock ≠ 0) :
    Harmless m m' := by
  cases h with
  | hit => exact .count m _ fun _ => ⟨rfl, rfl, rfl, rfl⟩
  | lost => exact .count m _ fun _ => ⟨rfl, rfl, rfl, rfl⟩
  | released => exact .count m _ fun _ => ⟨rfl, rfl, rfl, rfl⟩
  | dropped => exact .count m _ fun _ => ⟨rfl, rfl, rfl, rfl⟩
  | @lock caller rw b k hlock =>
    have hone : ∀ x, ((m.store b fun h => { h with bLock := 1 }).cache.bh x).bLock = 0 →
        x ≠ b := by
      intro x hx hxb
      rw [hxb, Mem.store_self] at hx
      cases hx
    refine .of_flags (fun x => ?_) (fun x => ?_) fun x hd hl => ?_
    · exact Mem.store_keeps (f := fun h => { h with bLock := 1 }) (g := fun h => h.bUptodate)
        (fun _ => rfl) m b x
    · exact Mem.store_keeps (f := fun h => { h with bLock := 1 }) (g := fun h => h.key)
        (fun _ => rfl) m b x
    · have hxb := hone x hl
      rw [Mem.store_other _ _ hxb] at hd hl
      exact ⟨hd, hl⟩
  | @claimed w b c _ hc =>
    obtain ⟨c', hc', hcl, _⟩ := hwf.claim b w.dev w.block
    rw [hc, Option.some.injEq] at hc'
    subst hc'
    obtain ⟨hdirt, hlock⟩ := hclaim w b rfl
    exact .claim hcl hdirt hlock
  | fill hreq => exact .request hreq (hfill _ _ _ _ _ rfl)
  | _ => exact .of_cache rfl

theorem Holds.harmless {D : Drives} {m m' : Mem n} {v : Blocks n} {k : U32 × U32}
    (h : Holds D m v k) (hm : Harmless m m') : Holds D m' v k := by
  refine ⟨fun b hb hk => ?_, fun hclean p hp => h.stored (fun b hb hk => ?_) p hp⟩
  · obtain ⟨hup, hkey⟩ := hm.back b hb
    exact h.cached b hup (hkey.symm.trans hk)
  · rcases hm.kept b hb with ⟨hup, hkey⟩ | hgone
    · obtain ⟨hdirt, hlock⟩ := hclean b hup (hkey.trans hk)
      exact hm.clean b hup hdirt hlock
    · exact hgone

/-- The buffer of a completed request, and the others. -/
structure Ended (m m' : Mem n) (b : Fin n) (ok : Bool) : Prop where
  up : (m'.cache.bh b).bUptodate = if ok then 1 else 0
  key : ∀ x, (m'.cache.bh x).key = (m.cache.bh x).key
  dirt : (m'.cache.bh b).bDirt = (m.cache.bh b).bDirt
  other : ∀ x, x ≠ b → m'.cache.bh x = m.cache.bh x

theorem Completed.ended {m m' : Mem n} {ok : Bool} {req : Slot} {b : Fin n}
    (h : Completed m ok req m') (hb : (m.dev.request req).bh = some b) : Ended m m' b ok := by
  have hself : m'.cache.bh b =
      { m.cache.bh b with bUptodate := if ok then 1 else 0, bLock := 0 } := by
    rw [h.cache, hb, Cache.store_self]
  refine ⟨by rw [hself], fun x => (h.unlocks.links.bh x).key, by rw [hself], fun x hx => ?_⟩
  rw [h.cache, hb, Cache.store_other _ hx]

section one

variable {D : Drives} {K : Set (U32 × U32)} {m m' : Mem n} {v v' : Blocks n} {b : Fin n}
  {p : Drive × Nat}

/-- A block with one buffer. -/
theorem Holds.of_only {k : U32 × U32}
    (honly : ∀ x, (m.cache.bh x).bUptodate ≠ 0 → (m.cache.bh x).key = k → x = b)
    (hkey : (m.cache.bh b).key = k)
    (hcached : (m.cache.bh b).bUptodate ≠ 0 → v.data b = v.content k)
    (hstored : ((m.cache.bh b).bUptodate ≠ 0 →
        (m.cache.bh b).bDirt = 0 ∧ (m.cache.bh b).bLock = 0) →
      ∀ p, D.home k = some p → blockAt v.disks p = v.content k) : Holds D m v k := by
  refine ⟨fun x hx hk => ?_, fun hclean => hstored fun hb => hclean b hb hkey⟩
  have hxb := honly x hx hk
  rw [hxb] at hx ⊢
  exact hcached hx

/-- What happens to one buffer and to its block bears on no other block. -/
theorem Agrees.one (h : Agrees D K m v) (hd : Distinct m.cache) (hu : Uptodate m)
    (hK : Separate D K) (hk : (m.cache.bh b).key ∈ K)
    (hkey : (m'.cache.bh b).key = (m.cache.bh b).key)
    (hother : ∀ x, x ≠ b → m'.cache.bh x = m.cache.bh x ∧ v'.data x = v.data x)
    (hdisks : ∀ p, D.home (m.cache.bh b).key = some p → ∀ q, Apart q p →
      blockAt v'.disks q = blockAt v.disks q)
    (hcontent : ∀ k, k ≠ (m.cache.bh b).key → v'.content k = v.content k)
    (hcached : (m'.cache.bh b).bUptodate ≠ 0 → v'.data b = v'.content (m.cache.bh b).key)
    (hstored : ((m'.cache.bh b).bUptodate ≠ 0 →
        (m'.cache.bh b).bDirt = 0 ∧ (m'.cache.bh b).bLock = 0) →
      ∀ p, D.home (m.cache.bh b).key = some p →
        blockAt v'.disks p = v'.content (m.cache.bh b).key) :
    Agrees D K m' v' := by
  intro k hkK
  by_cases hkb : k = (m.cache.bh b).key
  · subst hkb
    refine .of_only (fun x hx hxk => ?_) hkey hcached hstored
    by_contra hxb
    rw [(hother x hxb).1] at hx hxk
    exact hxb (hd x b (hu x hx).1 hxk)
  · obtain ⟨p, hp⟩ := hK.placed _ hk
    have hne : ∀ x, (m'.cache.bh x).key = k → x ≠ b := by
      intro x hx hxb
      rw [hxb, hkey] at hx
      exact hkb hx.symm
    refine ⟨fun x hx hxk => ?_, fun hclean q hq => ?_⟩
    · obtain ⟨hbh, hdata⟩ := hother x (hne x hxk)
      rw [hbh] at hx hxk
      rw [hdata, hcontent k hkb]
      exact (h k hkK).cached x hx hxk
    · rw [hdisks p hp q (hK.apart k hkK _ hk hkb q p hq hp), hcontent k hkb]
      refine (h k hkK).stored (fun x hx hxk => ?_) q hq
      have hxb : x ≠ b := by
        intro hxb
        rw [hxb] at hxk
        exact hkb hxk.symm
      have hbh := (hother x hxb).1
      rw [← hbh] at hx hxk ⊢
      exact hclean x hx hxk

variable (h : Agrees D K m v) (hd : Distinct m.cache) (hu : Uptodate m) (hK : Separate D K)
  (hk : (m.cache.bh b).key ∈ K) (hp : D.home (m.cache.bh b).key = some p)

include h hd hu hK hk hp

omit hK in
/-- The disk has a block of which no buffer is up to date. -/
theorem Agrees.on_disk (hup : (m.cache.bh b).bUptodate = 0) :
    blockAt v.disks p = v.content (m.cache.bh b).key := by
  refine (h _ hk).stored (fun x hx hkey => ?_) p hp
  rw [hd x b (hu x hx).1 hkey] at hx
  exact absurd hup hx

theorem Agrees.read (he : Ended m m' b true) (hup : (m.cache.bh b).bUptodate = 0) :
    Agrees D K m' { v with data := Function.update v.data b (blockAt v.disks p) } := by
  have hdisk := h.on_disk hd hu hk hp hup
  refine h.one hd hu hK hk (he.key b) (fun x hx => ⟨he.other x hx, Function.update_of_ne hx ..⟩)
    (fun _ _ _ _ => rfl) (fun _ _ => rfl) (fun _ => ?_) fun _ q hq => ?_
  · show Function.update v.data b _ b = _
    rw [Function.update_self]
    exact hdisk
  · rw [hp, Option.some.injEq] at hq
    rw [← hq]
    exact hdisk

theorem Agrees.write (he : Ended m m' b true) (hup : (m.cache.bh b).bUptodate ≠ 0) :
    Agrees D K m' { v with disks := putBlock v.disks p (v.data b) } := by
  have hdata := (h _ hk).cached b hup rfl
  refine h.one hd hu hK hk (he.key b) (fun x hx => ⟨he.other x hx, rfl⟩) (fun q hq r hr => ?_)
    (fun _ _ => rfl) (fun _ => hdata) fun _ q hq => ?_
  · rw [hp, Option.some.injEq] at hq
    rw [← hq] at hr
    exact blockAt_apart hr _ _
  · rw [hp, Option.some.injEq] at hq
    rw [← hq, ← hdata]
    exact blockAt_putBlock _ _ _

theorem Agrees.readFailed (he : Ended m m' b false) (hup : (m.cache.bh b).bUptodate = 0)
    (x : Block) : Agrees D K m' { v with data := Function.update v.data b x } := by
  have hdisk := h.on_disk hd hu hk hp hup
  refine h.one hd hu hK hk (he.key b) (fun y hy => ⟨he.other y hy, Function.update_of_ne hy ..⟩)
    (fun _ _ _ _ => rfl) (fun _ _ => rfl) (fun hb => absurd he.up hb) fun _ q hq => ?_
  rw [hp, Option.some.injEq] at hq
  rw [← hq]
  exact hdisk

theorem Agrees.writeFailed (he : Ended m m' b false) (x : Block) :
    Agrees D K m' { v with
      disks := putBlock v.disks p x
      content := Function.update v.content (m.cache.bh b).key x } := by
  refine h.one hd hu hK hk (he.key b) (fun y hy => ⟨he.other y hy, rfl⟩) (fun q hq r hr => ?_)
    (fun k hkb => Function.update_of_ne hkb ..) (fun hb => absurd he.up hb) fun _ q hq => ?_
  · rw [hp, Option.some.injEq] at hq
    rw [← hq] at hr
    exact blockAt_apart hr _ _
  · rw [hp, Option.some.injEq] at hq
    show blockAt (putBlock _ _ _) q = Function.update v.content _ x _
    rw [← hq, blockAt_putBlock, Function.update_self]

omit hp in
/-- A store makes the buffer the place where the block is. -/
theorem Agrees.put (hup : (m.cache.bh b).bUptodate ≠ 0) (x : Block) :
    Agrees D K (m.store b fun h => { h with bDirt := 1 })
      ⟨Function.update v.data b x, v.disks,
        Function.update v.content (m.cache.bh b).key x⟩ := by
  have hself : (m.store b fun h => { h with bDirt := 1 }).cache.bh b =
      { m.cache.bh b with bDirt := 1 } := Mem.store_self ..
  refine h.one hd hu hK hk (by rw [hself]; rfl)
    (fun y hy => ⟨Mem.store_other _ _ hy, Function.update_of_ne hy ..⟩) (fun _ _ _ _ => rfl)
    (fun k hkb => Function.update_of_ne hkb ..) (fun _ => ?_) fun hclean => ?_
  · show Function.update v.data b x b = Function.update v.content _ x _
    rw [Function.update_self, Function.update_self]
  · rw [hself] at hclean
    have hone : (1 : BitVec 8) = 0 := (hclean hup).1
    exact absurd hone (by decide)

end one

/-! ## Runs -/

variable {D : Drives} {K : Set (U32 × U32)} {v v' : Volume n Task}

structure Sound (D : Drives) (K : Set (U32 × U32)) (v : Volume n Task) : Prop extends
    Orderly K v.sys where
  agrees : Agrees D K v.sys.mem v.toBlocks

theorem Agrees.transfer {m m' : Mem n} {w w' : Blocks n} {b : Fin n} {ok : Bool} {req : Slot}
    (h : Agrees D K m w) (hd : Distinct m.cache) (hu : Uptodate m) (hK : Separate D K)
    (hk : (m.cache.bh b).key ∈ K) (he : Ended m m' b ok)
    (hsent : Sent m (m.dev.request req).cmd b)
    (hplace : D.place (m.dev.request req).dev (m.dev.request req).sector =
      D.home (m.cache.bh b).key)
    (ht : Transfer D (m.dev.request req) b (m.cache.bh b).key w ok w') : Agrees D K m' w' := by
  have hread : (m.dev.request req).cmd = BLK_READ → (m.cache.bh b).bUptodate = 0 := by
    intro hcmd
    rcases hsent.2 with ⟨_, hup⟩ | ⟨hwrite, _⟩
    · exact hup
    · rw [hcmd] at hwrite
      exact absurd hwrite (by decide)
  have hwrite : (m.dev.request req).cmd = BLK_WRITE → (m.cache.bh b).bUptodate ≠ 0 := by
    intro hcmd
    rcases hsent.2 with ⟨hread, _⟩ | ⟨_, hup⟩
    · rw [hcmd] at hread
      exact absurd hread (by decide)
    · exact hup
  obtain ⟨p, hp⟩ := hK.placed _ hk
  have hpp : ∀ q, D.place (m.dev.request req).dev (m.dev.request req).sector = some q → q = p := by
    intro q hq
    rw [hplace, hp, Option.some.injEq] at hq
    exact hq.symm
  cases ht with
  | read hcmd hq =>
    rw [hpp _ hq]
    exact h.read hd hu hK hk hp he (hread hcmd)
  | write hcmd hq =>
    rw [hpp _ hq]
    exact h.write hd hu hK hk hp he (hwrite hcmd)
  | readFailed hcmd x => exact h.readFailed hd hu hK hk hp he (hread hcmd) x
  | writeFailed hcmd hq x =>
    rw [hpp _ hq]
    exact h.writeFailed hd hu hK hk hp he x
  | writeRefused hcmd hq =>
    rw [hplace, hp] at hq
    cases hq

theorem Act.Calls.harmless {s s' : System n Task} {a : Act n Task} (ha : a.Calls)
    (h : Orderly K s) (hs : s.next mode a = some s') : Harmless s.mem s'.mem := by
  cases a with
  | call t op =>
    obtain ⟨_, _, rfl⟩ := System.call_eq hs
    exact .of_cache (System.call_cache s t op).1
  | go t =>
    obtain ⟨_, _, rfl⟩ := System.go_eq hs
    exact .of_cache rfl
  | step t =>
    obtain ⟨_, m, nx, hflow, rfl⟩ := System.step_flow hs
    rw [System.settle_mem]
    refine hflow.harmless h.wellFormed (fun w b hpc => ?_) fun caller rw b k req hpc => ?_
    · obtain ⟨hlock, hdirt, _⟩ := h.claims hpc
      exact ⟨hdirt, hlock⟩
    · have hmine : lockHolds s.mem s.pc (.inr t) = some b := by
        rw [lockHolds, hpc]
        rfl
      rw [h.locked hmine]
      decide
  | _ => exact absurd ha id

theorem sound_step {e : Event n Task} (hK : Separate D K) (h : Sound D K v)
    (hs : Volume.Step D mode v e v') (hok : v.Careful K e) : Sound D K v' := by
  cases hs with
  | act ha hs =>
    exact ⟨orderly_step h.toOrderly hs hok, fun k hk =>
      (h.agrees k hk).harmless (ha.harmless h.toOrderly hs)⟩
  | @intr ok s req b blocks hs hreq hb ht =>
    refine ⟨orderly_step h.toOrderly hs hok, ?_⟩
    obtain ⟨m, hm, rfl⟩ := System.intr_eq hs
    obtain ⟨req', hc⟩ := complete_cases hm
    have hreq' : req' = req := Option.some.inj (hc.head.symm.trans hreq)
    subst hreq'
    obtain ⟨b', hb', _, hk, hsent, hdev, hsector⟩ := h.toOrderly.completes hc
    have hbb : b' = b := Option.some.inj (hb'.symm.trans hb)
    subst hbb
    refine h.agrees.transfer h.distinct h.uptodate hK hk (hc.ended hb) hsent ?_ ht
    rw [hdev, hsector]
    rfl
  | @put b x s hs =>
    refine ⟨orderly_step h.toOrderly hs hok, ?_⟩
    rw [System.setDirt_eq hs]
    exact h.agrees.put h.distinct h.uptodate hK
      (h.known b (h.uptodate b hok.2.1).1) hok.2.1 x

omit [DecidableEq Task] in
theorem sound_start [NeZero n] (h : Fresh v.sys)
    (hdisk : ∀ k ∈ K, ∀ p, D.home k = some p → blockAt v.disks p = v.content k) :
    Sound D K v := by
  have hnone : ∀ b, (v.sys.mem.cache.bh b).bUptodate = 0 := by
    obtain ⟨bufferEnd, blocknr, hcache⟩ := h.cache
    intro b
    rw [hcache]
    rfl
  exact ⟨orderly_start h, fun k hk => ⟨fun b hb => absurd (hnone b) hb, fun _ => hdisk k hk⟩⟩

/-- In every state of every run, a buffer that is up to date has what its block holds, and so
has one that `bread` returns; and a block that the disk does not have is in a buffer that is up
to date, and dirty or locked, so that nobody takes it. -/
theorem blocks_kept [NeZero n] (hK : Separate D K) (h₀ : Fresh v.sys)
    (hdisk : ∀ k ∈ K, ∀ p, D.home k = some p → blockAt v.disks p = v.content k)
    {es : List (Event n Task)}
    (h : Run (Guarded (Volume.Careful K) (Volume.Step D mode)) v es v') :
    (∀ b, (v'.sys.mem.cache.bh b).bUptodate ≠ 0 →
      v'.data b = v'.content (v'.sys.mem.cache.bh b).key) ∧
    (∀ t w b, v'.sys.pc t = .ret w (some b) → w.kind = .bread →
      (v'.sys.mem.cache.bh b).key = w.key ∧ v'.data b = v'.content w.key) ∧
    ∀ k ∈ K, ∀ p, D.home k = some p → blockAt v'.disks p = v'.content k ∨
      ∃ b, (v'.sys.mem.cache.bh b).key = k ∧ (v'.sys.mem.cache.bh b).bUptodate ≠ 0 ∧
        v'.data b = v'.content k ∧
        ((v'.sys.mem.cache.bh b).bDirt ≠ 0 ∨ (v'.sys.mem.cache.bh b).bLock ≠ 0) := by
  have hsound : Sound D K v' := h.invariant (sound_start h₀ hdisk) fun _ _ _ ha hs =>
    sound_step hK ha hs.2 hs.1
  have hcached : ∀ b, (v'.sys.mem.cache.bh b).bUptodate ≠ 0 →
      v'.data b = v'.content (v'.sys.mem.cache.bh b).key := fun b hb =>
    (hsound.agrees _ (hsound.known b (hsound.uptodate b hb).1)).cached b hb rfl
  refine ⟨hcached, fun t w b hpc hbread => ?_, fun k hk p hp => ?_⟩
  · have hvalid := hsound.valid t
    rw [hpc] at hvalid
    obtain ⟨hkey, hup, _⟩ := hvalid hbread
    exact ⟨hkey, hkey ▸ hcached b hup⟩
  · by_cases hclean : ∀ b, (v'.sys.mem.cache.bh b).bUptodate ≠ 0 →
        (v'.sys.mem.cache.bh b).key = k →
        (v'.sys.mem.cache.bh b).bDirt = 0 ∧ (v'.sys.mem.cache.bh b).bLock = 0
    · exact Or.inl ((hsound.agrees k hk).stored hclean p hp)
    · push Not at hclean
      obtain ⟨b, hb, hkey, hdirty⟩ := hclean
      refine Or.inr ⟨b, hkey, hb, (hsound.agrees k hk).cached b hb hkey, ?_⟩
      by_cases hd : (v'.sys.mem.cache.bh b).bDirt = 0
      · exact Or.inr (hdirty hd)
      · exact Or.inl hd

/-! ## A block that is read, changed and written

Task 0 reads block 5 of the first partition, which begins at sector 63, stores bytes in its
buffer and writes it. -/

instance (w : Want) : Decidable w.Narrow := inferInstanceAs (Decidable (w.dev.toNat ≤ 65535))

instance [DecidablePred (· ∈ K)] (s : System n Task) (a : Act n Task) :
    Decidable (Careful K s a) :=
  match a with
  | .call _ (.want w) => inferInstanceAs (Decidable (w.Narrow ∧ w.key ∈ K))
  | .setDirt b v => inferInstanceAs (Decidable (v = 1 ∧ (s.mem.cache.bh b).bUptodate ≠ 0 ∧
      (s.mem.cache.bh b).bLock = 0))
  | .call t (.brelse b) => inferInstanceAs (Decidable (Polite s (.call t (.brelse b))))
  | .call t (.llRwBlock rw b) => inferInstanceAs (Decidable (Polite s (.call t (.llRwBlock rw b))))
  | .go t => inferInstanceAs (Decidable (Polite s (.go t)))
  | .step t => inferInstanceAs (Decidable (Polite s (.step t)))
  | .intr ok => inferInstanceAs (Decidable (Polite s (.intr ok)))
  | .setUptodate b v => inferInstanceAs (Decidable (Polite s (.setUptodate b v)))

theorem run_calls {as : List (Act n Task)} {s : System n Task}
    (h : Run (Guarded (Careful K) (System.Step mode)) v.sys as s) (ha : ∀ a ∈ as, a.Calls) :
    Run (Guarded (Volume.Careful K) (Volume.Step D mode)) v (as.map .act) { v with sys := s } := by
  induction h with
  | nil => exact Run.nil
  | @snoc as s s' a _ hs ih =>
    have hall : ∀ a ∈ as, a.Calls := fun a hmem => ha a (List.mem_append_left _ hmem)
    have hlast : a.Calls := ha a (List.mem_append_right _ List.mem_cons_self)
    rw [List.map_append]
    exact (ih hall).snoc ⟨hs.1, .act hlast hs.2⟩

namespace FifthBlock

def blocks : Set (U32 × U32) := {(0x301, 5)}

instance : DecidablePred (· ∈ blocks) := fun k => inferInstanceAs (Decidable (k = (0x301, 5)))

def letters : Block := fun _ _ => 0x41

def start : Volume 1 (Fin 2) where
  data _ _ _ := 0
  disks _ l i := .ofNat 8 (l + i.val)
  content _ := blockAt (fun _ l i => .ofNat 8 (l + i.val)) (0, 73)
  sys := OtherBlock.start

def asks : List (Act 1 (Fin 2)) :=
  .call 0 (.want ⟨.bread, 0x301, 5⟩) :: List.replicate 12 (.step 0)

def takes : List (Act 1 (Fin 2)) := [.go 0, .step 0, .step 0]

def writes : List (Act 1 (Fin 2)) :=
  .call 0 (.llRwBlock BLK_WRITE 0) :: List.replicate 5 (.step 0)

/-- The system after the actions. -/
def after (s : System 1 (Fin 2)) (as : List (Act 1 (Fin 2))) : System 1 (Fin 2) :=
  (replay (System.next .linking) s as).getD s

def asked : System 1 (Fin 2) := after OtherBlock.start asks
def brought : System 1 (Fin 2) := after asked [.intr true]
def taken : System 1 (Fin 2) := after brought takes
def stored : System 1 (Fin 2) := after taken [.setDirt 0 1]
def sent : System 1 (Fin 2) := after stored writes
def written : System 1 (Fin 2) := after sent [.intr true]

theorem next_after {s : System 1 (Fin 2)} {a : Act 1 (Fin 2)}
    (h : (s.next .linking a).isSome) : s.next .linking a = some (after s [a]) := by
  obtain ⟨s', hs'⟩ := Option.isSome_iff_exists.mp h
  rw [after, replay, hs']
  rfl

def events : List (Event 1 (Fin 2)) :=
  asks.map .act ++ [.act (.intr true)] ++ takes.map .act ++ [.put 0 letters] ++
    writes.map .act ++ [.act (.intr true)]

def readBlocks : Blocks 1 :=
  { start.toBlocks with
    data := Function.update start.data 0 (blockAt start.disks (0, 73)) }

def changed : Blocks 1 :=
  ⟨Function.update readBlocks.data 0 letters, readBlocks.disks,
    Function.update readBlocks.content (taken.mem.cache.bh 0).key letters⟩

def writtenBlocks : Blocks 1 :=
  { changed with disks := putBlock changed.disks (0, 73) (changed.data 0) }

abbrev Steps : Volume 1 (Fin 2) → Event 1 (Fin 2) → Volume 1 (Fin 2) → Prop :=
  Guarded (Volume.Careful blocks) (Volume.Step SecondSectorFails.drives .linking)

theorem reads : Steps ⟨start.toBlocks, asked⟩ (.act (.intr true)) ⟨readBlocks, brought⟩ := by
  have hhead : asked.mem.dev.reqQ BLK_DEV_NUM_HD = some 31 := by decide +kernel
  have hb : (asked.mem.dev.request 31).bh = some 0 := by decide +kernel
  have hcmd : (asked.mem.dev.request 31).cmd = BLK_READ := by decide +kernel
  have hplace : SecondSectorFails.drives.place (asked.mem.dev.request 31).dev
      (asked.mem.dev.request 31).sector = some (0, 73) := by decide +kernel
  exact ⟨trivial, .intr (next_after (by decide +kernel)) hhead hb (.read hcmd hplace)⟩

theorem changes : Steps ⟨readBlocks, taken⟩ (.put 0 letters) ⟨changed, stored⟩ :=
  ⟨⟨rfl, by decide +kernel, by decide +kernel⟩, .put (next_after (by decide +kernel))⟩

theorem writesBack : Steps ⟨changed, sent⟩ (.act (.intr true)) ⟨writtenBlocks, written⟩ := by
  have hhead : sent.mem.dev.reqQ BLK_DEV_NUM_HD = some 31 := by decide +kernel
  have hb : (sent.mem.dev.request 31).bh = some 0 := by decide +kernel
  have hcmd : (sent.mem.dev.request 31).cmd = BLK_WRITE := by decide +kernel
  have hplace : SecondSectorFails.drives.place (sent.mem.dev.request 31).dev
      (sent.mem.dev.request 31).sector = some (0, 73) := by decide +kernel
  exact ⟨trivial, .intr (next_after (by decide +kernel)) hhead hb (.write hcmd hplace)⟩

theorem run : Run Steps start events ⟨writtenBlocks, written⟩ := by
  have hasked : Run (Guarded (Careful blocks) (System.Step .linking)) start.sys asks asked :=
    run_guarded_replay (by decide +kernel)
  have htaken : Run (Guarded (Careful blocks) (System.Step .linking)) brought takes taken :=
    run_guarded_replay (by decide +kernel)
  have hsent : Run (Guarded (Careful blocks) (System.Step .linking)) stored writes sent :=
    run_guarded_replay (by decide +kernel)
  have hread : Run Steps start _ ⟨readBlocks, brought⟩ :=
    (run_calls hasked (by decide)).snoc reads
  have hchanged : Run Steps start _ ⟨changed, stored⟩ :=
    (hread.append (run_calls htaken (by decide))).snoc changes
  exact (hchanged.append (run_calls hsent (by decide))).snoc writesBack

end FifthBlock

open FifthBlock in
theorem blocks_kept_fifthBlock : ∃ v, Run Steps start events v ∧
    v.content (0x301, 5) = letters ∧ blockAt v.disks (0, 73) = letters := by
  have hhome : SecondSectorFails.drives.home (0x301, 5) = some (0, 73) := by decide
  have hseparate : Separate SecondSectorFails.drives blocks :=
    ⟨fun k hk => ⟨(0, 73), by rw [show k = _ from hk, hhome]⟩,
      fun k hk k' hk' hne => absurd (Eq.trans hk (Eq.symm hk')) hne⟩
  have hdisk : ∀ k ∈ blocks, ∀ p, SecondSectorFails.drives.home k = some p →
      blockAt start.disks p = start.content k := by
    intro k hk p hp
    rw [show k = _ from hk, hhome, Option.some.injEq] at hp
    rw [← hp]
    rfl
  have hkey : (taken.mem.cache.bh 0).key = (0x301, 5) := by decide +kernel
  have hcontent : writtenBlocks.content (0x301, 5) = letters := by
    show Function.update readBlocks.content (taken.mem.cache.bh 0).key letters (0x301, 5) = _
    rw [hkey, Function.update_self]
  have hquiet : ∀ b, (written.mem.cache.bh b).bDirt = 0 ∧ (written.mem.cache.bh b).bLock = 0 := by
    decide +kernel
  have hfresh : Fresh start.sys := fresh_boot 0x200000 fun _ => 0
  obtain ⟨-, -, hkept⟩ := blocks_kept hseparate hfresh hdisk run
  refine ⟨_, run, hcontent, ?_⟩
  rcases hkept _ rfl _ hhome with hdone | ⟨b, -, -, -, hdirt | hlock⟩
  · exact hdone.trans hcontent
  · exact absurd (hquiet b).1 hdirt
  · exact absurd (hquiet b).2 hlock

end Io
end CherryOS
