import CherryOS.Kernel.Segment

/-!
# The page allocator and the page tables

`Mem` is what `mm/memory.c` works on: `mem_map`, one use count for each frame above 1 MB,
and the physical memory, read and written in 32-bit words.  Word `w` lies at address
`4 * w`, so the page directory, which `head.s` puts at address 0, is words 0 to 1023, and
the frame with number `f`, at address `4096 * f`, is the words `w` with `w / 1024 = f`.

A call that reaches `panic` ends in `Fault.panic` with its text.  `flush_TLB` changes no
memory and is left out.
-/

namespace CherryOS
namespace Mm

open Kernel

def LOW_MEM : Nat := 0x100000
def EXT_MEM_SIZE_LIMIT : Nat := 15 * 1024 * 1024
def PAGING_PAGES : Nat := EXT_MEM_SIZE_LIMIT / PAGE_SIZE
def NOT_EXIST : BitVec 8 := 100

structure Mem where
  memMap : Nat → BitVec 8
  phys : Nat → U32

/-- What ends a run of the kernel: a `panic`, a store through a null pointer, or a loop
that is never left. -/
inductive Fault
  | panic (msg : String)
  | nullStore
  | hang
deriving DecidableEq, Repr

theorem ok_bind {α β : Type} (a : α) (f : α → Except Fault β) :
    ((.ok a : Except Fault α) >>= f) = f a := rfl

theorem error_bind {α β : Type} (e : Fault) (f : α → Except Fault β) :
    ((.error e : Except Fault α) >>= f) = .error e := rfl

theorem bind_eq_ok {ε α β : Type} {x : Except ε α} {f : α → Except ε β} {b : β}
    (h : x >>= f = .ok b) : ∃ a, x = .ok a ∧ f a = .ok b := by
  cases x with
  | error e => cases h
  | ok a => exact ⟨a, rfl, h⟩

/-- `MAP_INDEX(addr)` -/
def mapIndex (addr : U32) : Nat := ((addr - BitVec.ofNat 32 LOW_MEM) / 4096#32).toNat

/-- The word at index `i` of an array of words that starts at `addr`. -/
def wordAt (addr : U32) (i : Nat) : Nat := addr.toNat / 4 + i

def pageAddr (entry : U32) : U32 := entry &&& 0xFFFFF000

/-- The indices of `mem_map`, in the order of the search. -/
@[irreducible] def mapIndices : List Nat := List.range PAGING_PAGES

/-- The indices of a page table. -/
@[irreducible] def tabIndices : List Nat := List.range 1024

theorem mem_mapIndices {i : Nat} : i ∈ mapIndices ↔ i < 3840 := by
  unfold mapIndices
  exact List.mem_range (n := PAGING_PAGES)

theorem mem_tabIndices {j : Nat} : j ∈ tabIndices ↔ j < 1024 := by
  unfold tabIndices
  exact List.mem_range

theorem nodup_tabIndices : tabIndices.Nodup := by
  unfold tabIndices
  exact List.nodup_range

namespace Mem

def setWord (m : Mem) (w : Nat) (v : U32) : Mem :=
  { m with phys := Function.update m.phys w v }

def clearPage (m : Mem) (addr : U32) : Mem :=
  { m with phys := fun w => if w / 1024 = addr.toNat / 4096 then 0 else m.phys w }

/-- The page is read at its own address, as `head.s` maps the first 16 MB.  A page beyond them is
the case of `copyTabEntsOrFault`. -/
def copyPage (m : Mem) (fromAddr toAddr : U32) : Mem :=
  { m with phys := fun w =>
      if w / 1024 = toAddr.toNat / 4096 then m.phys (wordAt fromAddr (w % 1024)) else m.phys w }

/-- `get_free_page()`: `none` is the address 0 it returns when no frame is free. -/
def getFreePage (m : Mem) : Option (U32 × Mem) :=
  match mapIndices.find? fun i => m.memMap i = 0 with
  | none => none
  | some i =>
    let addr := BitVec.ofNat 32 (0x1000 * i + LOW_MEM)
    some (addr, { m with memMap := Function.update m.memMap i (m.memMap i + 1) }.clearPage addr)

def freePage (addr : U32) (m : Mem) : Except Fault Mem :=
  if addr.toNat < LOW_MEM then .error (.panic "free addr < 1MB\n")
  else if LOW_MEM + EXT_MEM_SIZE_LIMIT ≤ addr.toNat then .error (.panic "free addr > 16MB\n")
  else if 1 ≤ m.memMap (mapIndex addr) then
    .ok { m with
      memMap := Function.update m.memMap (mapIndex addr) (m.memMap (mapIndex addr) - 1) }
  else .error (.panic "free addr bad map\n")

def initTask1Paging (m : Mem) : Except Fault Mem :=
  match m.getFreePage with
  | none => .error (.panic "init task1 failed\n")
  | some (page, m) =>
    .ok (((List.range (1024 / 4)).foldl (fun m i =>
      m.setWord (wordAt page i) (BitVec.ofNat 32 (i * 0x1000) ||| 7)) m).setWord 16 (page ||| 7))

/-! ## Tearing a window down -/

def nrOfDirEnt (size : U32) : Nat := ((size + 0x3FFFFF) >>> 22).toNat

def freePresent (entry : U32) (m : Mem) : Except Fault Mem :=
  if entry &&& 1 = 1 then freePage (pageAddr entry) m else .ok m

/-- The inner loop of `free_page_tables` on the table at `tab`. -/
def freeTabEnts (tab : U32) : List Nat → Mem → Except Fault Mem
  | [], m => .ok m
  | j :: js, m => do
    let m ← freePresent (m.phys (wordAt tab j)) m
    freeTabEnts tab js (m.setWord (wordAt tab j) 0)

/-- The outer loop of `free_page_tables` on the directory entries from `dir` on. -/
def freeDirEnts (dir : U32) : List Nat → Mem → Except Fault Mem
  | [], m => .ok m
  | i :: is, m =>
    if m.phys (wordAt dir i) &&& 1 = 0 then freeDirEnts dir is m
    else do
      let m ← freeTabEnts (pageAddr (m.phys (wordAt dir i))) tabIndices m
      let m ← freePage (pageAddr (m.phys (wordAt dir i))) m
      freeDirEnts dir is (m.setWord (wordAt dir i) 0)

def freePageTables (fromAddr size : U32) (m : Mem) : Except Fault Mem :=
  if fromAddr &&& 0x3FFFFF ≠ 0 then .error (.panic "free: page dir alignment error")
  else if fromAddr = 0 then .error (.panic "free addr = 0")
  else freeDirEnts ((fromAddr >>> 22) * 4) (List.range (nrOfDirEnt size)) m

/-! ## Copying a window -/

/-- The inner loop of `copy_page_tables`. -/
def copyTabEnts (fromTab toTab : U32) : List Nat → Mem → Mem × Int32
  | [], m => (m, 0)
  | j :: js, m =>
    let entry := m.phys (wordAt fromTab j)
    if entry &&& 1 = 1 then
      match m.getFreePage with
      | none => (m, -ENOMEM)
      | some (page, m) =>
        copyTabEnts fromTab toTab js
          ((m.copyPage (pageAddr entry) page).setWord (wordAt toTab j) (page ||| 7))
    else copyTabEnts fromTab toTab js m

/-- The outer loop of `copy_page_tables`. -/
def copyDirEnts (fromDir toDir : U32) : List Nat → Mem → Except Fault (Mem × Int32)
  | [], m => .ok (m, 0)
  | i :: is, m =>
    if m.phys (wordAt toDir i) &&& 1 ≠ 0 then
      .error (.panic "destination page dir is present")
    else if m.phys (wordAt fromDir i) &&& 1 = 0 then
      .error (.panic "source page dir is not present")
    else
      let fromTab := pageAddr (m.phys (wordAt fromDir i))
      match m.getFreePage with
      | none => .ok (m, -ENOMEM)
      | some (toTab, m) =>
        let (m, ret) := copyTabEnts fromTab toTab tabIndices
          (m.setWord (wordAt toDir i) (toTab ||| 7))
        if ret ≠ 0 then .ok (m, ret) else copyDirEnts fromDir toDir is m

def copyPageTables (fromAddr toAddr size : U32) (m : Mem) : Except Fault (Mem × Int32) :=
  if fromAddr &&& 0x3FFFFF ≠ 0 ∨ toAddr &&& 0x3FFFFF ≠ 0 then
    .error (.panic "copy: page dir alignment error")
  else copyDirEnts ((fromAddr >>> 22) * 4) ((toAddr >>> 22) * 4) (List.range (nrOfDirEnt size)) m

/-! ## Boot -/

/-- `mem_map` after `mem_init(startMem, endMem)`. -/
def memInit (startMem endMem : U32) : Nat → BitVec 8 := fun i =>
  if mapIndex startMem ≤ i ∧ i < mapIndex endMem then 0 else NOT_EXIST

/-- The page directory as `head.s` leaves it: four 4 MB pages for the kernel. -/
def bootDir (d : Nat) : U32 := if d < 4 then BitVec.ofNat 32 (d * 0x400000 + 0x87) else 0

/-! ## What the two allocator calls do -/

/-- The address of the frame with number `f`. -/
def frameAddr (f : Nat) : U32 := BitVec.ofNat 32 (f * 4096)

/-- Memory after `get_free_page` has handed out frame `f`. -/
def taken (m : Mem) (f : Nat) : Mem :=
  { memMap := Function.update m.memMap (f - 256) 1,
    phys := fun w => if w / 1024 = f then 0 else m.phys w }

/-- Memory after `free_page` has taken frame `f` back. -/
def released (m : Mem) (f : Nat) : Mem :=
  { m with memMap := Function.update m.memMap (f - 256) 0 }

theorem frameAddr_toNat {f : Nat} (hf : f < 4096) : (frameAddr f).toNat = f * 4096 := by
  rw [frameAddr, BitVec.toNat_ofNat]
  omega

theorem getFreePage_cases (m : Mem) :
    (m.getFreePage = none ∧ ∀ f, 256 ≤ f → f < 4096 → m.memMap (f - 256) ≠ 0) ∨
      ∃ f, 256 ≤ f ∧ f < 4096 ∧ m.memMap (f - 256) = 0 ∧
        m.getFreePage = some (frameAddr f, m.taken f) := by
  cases hf : mapIndices.find? fun i => m.memMap i = 0 with
  | none =>
    left
    have hnone : m.getFreePage = none := by rw [getFreePage, hf]
    refine ⟨hnone, fun f _ hhi h0 => ?_⟩
    have hi' := List.find?_eq_none.mp hf (f - 256) (mem_mapIndices.mpr (by omega))
    simp [h0] at hi'
  | some i =>
    right
    have hi : i < 3840 := mem_mapIndices.mp (List.mem_of_find?_eq_some hf)
    have h0 : m.memMap i = 0 := by simpa using List.find?_some hf
    have hsum : 0x1000 * i + LOW_MEM = (i + 256) * 4096 := by
      unfold LOW_MEM
      omega
    have haddr : BitVec.ofNat 32 (0x1000 * i + LOW_MEM) = frameAddr (i + 256) := by
      rw [frameAddr, hsum]
    have hframe : (frameAddr (i + 256)).toNat / 4096 = i + 256 := by
      rw [frameAddr_toNat (by omega)]
      omega
    refine ⟨i + 256, by omega, by omega, by rwa [Nat.add_sub_cancel], ?_⟩
    simp only [getFreePage, hf, haddr, clearPage, hframe, h0, taken, Nat.add_sub_cancel]
    rfl

theorem freePage_ok {m : Mem} {f : Nat} (hlo : 256 ≤ f) (hhi : f < 4096)
    (hc : m.memMap (f - 256) = 1) {addr : U32} (ha : addr.toNat = f * 4096) :
    freePage addr m = .ok (m.released f) := by
  have hidx : mapIndex addr = f - 256 := by
    have hsub : (addr - BitVec.ofNat 32 LOW_MEM).toNat = f * 4096 - 1048576 := by
      rw [BitVec.toNat_sub, ha, BitVec.toNat_ofNat, LOW_MEM]
      omega
    have h4096 : (4096#32).toNat = 4096 := rfl
    rw [mapIndex, BitVec.toNat_udiv, hsub, h4096]
    omega
  have hlow : ¬ addr.toNat < LOW_MEM := by
    rw [ha, LOW_MEM]
    omega
  have hhigh : ¬ LOW_MEM + EXT_MEM_SIZE_LIMIT ≤ addr.toNat := by
    rw [ha, LOW_MEM, EXT_MEM_SIZE_LIMIT]
    omega
  rw [freePage, if_neg hlow, if_neg hhigh, hidx, hc, if_pos (by decide)]
  rfl

/-! ## Reading memory after a write -/

@[simp] theorem setWord_memMap (m : Mem) (w : Nat) (v : U32) :
    (m.setWord w v).memMap = m.memMap := rfl

theorem setWord_phys (m : Mem) (w x : Nat) (v : U32) :
    (m.setWord w v).phys x = if x = w then v else m.phys x := by
  by_cases h : x = w <;> simp [setWord, h]

theorem taken_phys {m : Mem} {f w : Nat} (h : w / 1024 ≠ f) : (m.taken f).phys w = m.phys w :=
  if_neg h

@[simp] theorem copyPage_memMap (m : Mem) (a b : U32) : (m.copyPage a b).memMap = m.memMap := rfl

theorem copyPage_phys {m : Mem} {f w : Nat} (a : U32) (hf : f < 4096) (h : w / 1024 ≠ f) :
    (m.copyPage a (frameAddr f)).phys w = m.phys w := by
  have hframe : (frameAddr f).toNat / 4096 = f := by
    rw [frameAddr_toNat hf]
    omega
  rw [copyPage, hframe]
  exact if_neg h

end Mem

/-! ## Entries -/

/-- The number of the frame an entry names. -/
def frameOf (entry : U32) : Nat := (entry >>> 12).toNat

theorem pageAddr_toNat (e : U32) : (pageAddr e).toNat = frameOf e * 4096 := by
  have h : pageAddr e = (e >>> 12) <<< 12 := by
    ext i hi
    have hbit : (0xFFFFF000 : U32).getLsbD i = decide (12 ≤ i) := by
      interval_cases i <;> decide
    rw [pageAddr, BitVec.getElem_and, ← BitVec.getLsbD_eq_getElem (x := 0xFFFFF000), hbit]
    by_cases h12 : i < 12
    · simp [h12]
    · have h12' : 12 ≤ i := by omega
      simp [h12, h12', ← BitVec.getLsbD_eq_getElem, hi]
  have hlt : (e >>> 12).toNat < 2 ^ 20 := by
    rw [BitVec.toNat_ushiftRight, Nat.shiftRight_eq_div_pow]
    have := e.isLt
    omega
  rw [h, BitVec.toNat_shiftLeft, Nat.shiftLeft_eq, frameOf]
  omega

theorem wordAt_pageAddr (e : U32) (j : Nat) : wordAt (pageAddr e) j = frameOf e * 1024 + j := by
  rw [wordAt, pageAddr_toNat]
  omega

/-- The entry `page | 7` for a fresh frame. -/
theorem frameAddr_entry {f : Nat} (hf : f < 4096) :
    frameOf (Mem.frameAddr f ||| 7) = f ∧ (Mem.frameAddr f ||| 7) &&& 1 = 1 ∧
      (Mem.frameAddr f ||| 7) &&& 0x80 = 0 := by
  have hshift : Mem.frameAddr f = BitVec.ofNat 32 f <<< 12 := by
    apply BitVec.eq_of_toNat_eq
    rw [Mem.frameAddr_toNat hf, BitVec.toNat_shiftLeft, BitVec.toNat_ofNat, Nat.shiftLeft_eq]
    omega
  refine ⟨?_, ?_, ?_⟩
  · rw [frameOf, BitVec.ushiftRight_or_distrib, BitVec.toNat_or, BitVec.toNat_ushiftRight,
      Mem.frameAddr_toNat hf, Nat.shiftRight_eq_div_pow]
    show (f * 4096 / 4096) ||| 0 = f
    rw [Nat.or_zero, Nat.mul_div_cancel _ (by decide)]
  · rw [hshift]
    ext i hi
    interval_cases i <;> simp
  · rw [hshift]
    ext i hi
    interval_cases i <;> simp

end Mm
end CherryOS
