import CherryOS.Mm.Allocator

/-!
# Memory at boot

`main` reads the BIOS's count of kilobytes above 1 MB, a word of 16 bits, and hands it to
`mem_init` as if it were the address at which memory ends.  That address lies below 1 MB, so
`MAP_INDEX` of it wraps, and every frame from 4 MB to 16 MB is the allocator's however much
memory there is.
-/

namespace CherryOS
namespace Kernel

open Mm

/-- The arguments of `mem_init`, if `main` does not stop at "memory size is too small". -/
def memInitArgs (extMemK : BitVec 16) : Option (U32 × U32) :=
  let mainMemEnd : U32 := extMemK.setWidth 32
  if mainMemEnd < 12 * 1024 then none
  else
    let mainMemEnd := if 16 * 1024 * 1024 ≤ mainMemEnd then 16 * 1024 * 1024 else mainMemEnd
    let bufMemEnd := 4 * 1024 * 1024
    some (bufMemEnd, mainMemEnd)

theorem memInitArgs_of_le {k : BitVec 16} (hk : 12 * 1024 ≤ k.toNat) :
    memInitArgs k = some (0x400000, k.setWidth 32) := by
  have hlt := k.isLt
  have hval : (k.setWidth 32).toNat = k.toNat := by
    rw [BitVec.toNat_setWidth]
    omega
  have hbig : ¬ k.setWidth 32 < 12 * 1024 := by
    rw [BitVec.lt_def, hval]
    exact Nat.not_lt.mpr hk
  have hsmall : ¬ 16 * 1024 * 1024 ≤ k.setWidth 32 := by
    rw [BitVec.le_def, hval]
    show ¬ 16777216 ≤ k.toNat
    omega
  simp only [memInitArgs, if_neg hbig, if_neg hsmall]
  rfl

/-- The end that `mem_init` is given stands after every frame. -/
theorem mapIndex_kilobytes (k : BitVec 16) : 3840 ≤ mapIndex (k.setWidth 32) := by
  have hlt := k.isLt
  rw [mapIndex, BitVec.toNat_udiv, BitVec.toNat_sub, BitVec.toNat_ofNat, BitVec.toNat_setWidth]
  show 3840 ≤ (2 ^ 32 - 0x100000 % 2 ^ 32 + k.toNat % 2 ^ 32) % 2 ^ 32 / 4096
  omega

theorem managed_iff (f : Nat) : Managed 0x400000 0x1000000 f ↔ 1024 ≤ f ∧ f < 4096 := Iff.rfl

/-- The frames from 4 MB to 16 MB are the allocator's. -/
theorem counted_memInit_kilobytes (k : BitVec 16) (phys : Nat → U32) :
    Counted 0x400000 0x1000000 { memMap := Mem.memInit 0x400000 (k.setWidth 32), phys := phys } ∅ := by
  have hend := mapIndex_kilobytes k
  refine Counted.of_managed (fun f hlo hhi => ?_) phys
  have hstart : mapIndex 0x400000 = 768 := by decide +kernel
  rw [hstart, managed_iff]
  omega

/-- The frames are handed out from 4 MB upwards. -/
theorem served_gets (k : BitVec 16) (n : Nat) (hn : n ≤ 3072) :
    ∃ m held, Served (Mem.memInit 0x400000 (k.setWidth 32)) (List.replicate n .get) m held ∧
      Counted 0x400000 0x1000000 m held ∧
      ∀ f < 4096, Mem.frameAddr f ∈ held ↔ 1024 ≤ f ∧ f < 1024 + n := by
  induction n with
  | zero =>
    refine ⟨_, ∅, .init fun _ => 0, counted_memInit_kilobytes k _, fun f _ => ?_⟩
    exact iff_of_false (Set.notMem_empty _) (by omega)
  | succ n ih =>
    obtain ⟨m, held, hrun, hcounted, hheld⟩ := ih (by omega)
    have hfree : ∀ f, 256 ≤ f → f < 4096 → (m.memMap (f - 256) = 0 ↔ 1024 + n ≤ f) := by
      intro f hlo hhi
      rw [hcounted.free_iff hlo hhi, hheld f hhi, managed_iff]
      omega
    have hget := m.getFreePage_first (f := 1024 + n) (by omega) (by omega)
      ((hfree _ (by omega) (by omega)).mpr (le_refl _))
      fun g hlo hg h0 => absurd ((hfree g hlo (by omega)).mp h0) (Nat.not_le.mpr hg)
    refine ⟨_, _, List.replicate_succ' ▸ hrun.got hget, hcounted.got hget, fun f hf => ?_⟩
    rw [Set.mem_insert_iff, hheld f hf]
    constructor
    · rintro (heq | hin)
      · have := frameAddr_inj hf (by omega) heq
        omega
      · omega
    · intro hin
      by_cases hlast : f = 1024 + n
      · exact Or.inl (by rw [hlast])
      · exact Or.inr (by omega)

/-- The last frame is handed out after all others. -/
theorem served_gets_last (k : BitVec 16) :
    ∃ m held, Served (Mem.memInit 0x400000 (k.setWidth 32)) (List.replicate 3071 .get) m held ∧
      m.getFreePage = some (0xFFF000, m.taken 4095) := by
  obtain ⟨m, held, hrun, hcounted, hheld⟩ := served_gets k 3071 (by decide)
  have hfree : ∀ f, 256 ≤ f → f < 4096 → (m.memMap (f - 256) = 0 ↔ f = 4095) := by
    intro f hlo hhi
    rw [hcounted.free_iff hlo hhi, hheld f hhi, managed_iff]
    omega
  exact ⟨m, held, hrun, m.getFreePage_first (f := 4095) (by decide) (by decide)
    ((hfree 4095 (by decide) (by decide)).mpr rfl)
    fun g hlo hg h0 => absurd ((hfree g hlo (by omega)).mp h0) (by omega)⟩

/-- All that is handed out is real memory exactly if there are 15 MB of it above the first. -/
theorem real_memory_iff (k : BitVec 16) (hk : 12 * 1024 ≤ k.toNat) (startMem endMem : U32)
    (hmain : memInitArgs k = some (startMem, endMem)) :
    (∀ n m held page m', Served (Mem.memInit startMem endMem) (List.replicate n .get) m held →
        m.getFreePage = some (page, m') →
        4 * 1024 * 1024 ≤ page.toNat ∧
          page.toNat + PAGE_SIZE ≤ min (16 * 1024 * 1024) (1024 * 1024 + k.toNat * 1024)) ↔
      15 * 1024 ≤ k.toNat := by
  rw [memInitArgs_of_le hk] at hmain
  cases hmain
  have hsize : PAGE_SIZE = 4096 := rfl
  constructor
  · intro hreal
    obtain ⟨m, held, hrun, hget⟩ := served_gets_last k
    obtain ⟨-, hle⟩ := hreal 3071 m held _ _ hrun hget
    have hlast : 0xFFF000 + 4096 ≤ 1024 * 1024 + k.toNat * 1024 := le_trans hle (min_le_right _ _)
    omega
  · intro hmem n m held page m' hrun hget
    have hcounted := hrun.counted (counted_memInit_kilobytes k)
      (fun _ h => Call.noConfusion (List.eq_of_mem_replicate h))
      fun before c m held hb _ => by
        obtain rfl : c = .get := List.eq_of_mem_replicate
          (hb.subset (List.mem_append_right _ List.mem_cons_self))
        exact Or.inl (by decide)
    obtain ⟨f, hlo, hhi, hfree, rfl, -⟩ := Mem.getFreePage_some hget
    obtain ⟨hf, -⟩ := (hcounted.free_iff hlo hhi).mp hfree
    rw [managed_iff] at hf
    rw [Mem.frameAddr_toNat hhi, hsize]
    exact ⟨by omega, le_min (by omega) (by omega)⟩

theorem real_memory_iff_16MB :
    memInitArgs 0x3C00 = some (0x400000, 0x3C00) ∧
      ∀ n m held page m', Served (Mem.memInit 0x400000 0x3C00) (List.replicate n .get) m held →
        m.getFreePage = some (page, m') →
        4 * 1024 * 1024 ≤ page.toNat ∧
          page.toNat + PAGE_SIZE ≤ min (16 * 1024 * 1024) (1024 * 1024 + 15360 * 1024) :=
  ⟨by decide, (real_memory_iff 0x3C00 (by decide) 0x400000 0x3C00 (by decide)).mpr (by decide)⟩

/-- With 12 MB above the first the last frame below 16 MB is handed out. -/
theorem frame_beyond_memory :
    memInitArgs 0x3000 = some (0x400000, 0x3000) ∧
      ∃ m held m', Served (Mem.memInit 0x400000 0x3000) (List.replicate 3071 .get) m held ∧
        m.getFreePage = some (0xFFF000, m') ∧ 1024 * 1024 + 0x3000 * 1024 < 0xFFF000 + PAGE_SIZE := by
  refine ⟨by decide, ?_⟩
  obtain ⟨m, held, hrun, hget⟩ := served_gets_last 0x3000
  exact ⟨m, held, _, hrun, hget, by decide⟩

end Kernel
end CherryOS
