import CherryOS.Io.Bread

/-!
# Reference counts

As long as callers give back only what they were given, `b_count` is the number of
references to a buffer, those of callers and those of calls under way, until a look-up
raises a count of 255: the field has 8 bits, and comes round to 0.
-/

namespace CherryOS
namespace Io

open Kernel (U32)
open Fs (BufferHead Cache)
open Driver
open Lib

variable {n : Nat} {Task : Type} [DecidableEq Task] {mode : AddMode}

/-- The references to each buffer are counted, the release of one does not panic, and a
buffer that is recycled has none. -/
structure Exact (mode : AddMode) (s : System n Task) : Prop where
  counted : Counted s.mem s.pc
  released : ∀ t caller b s', s.pc t = .brelseWait caller b →
    System.Step mode s (.step t) s' → s'.pc t ≠ .panicked
  recycled : ∀ t w b s', s.pc t = .claim w b → System.Step mode s (.step t) s' →
    s'.pc t = .gotBlk w b → s.mem.handed b = 0 ∧ ∀ t', (s.pc t').holds ≠ some b

omit [DecidableEq Task] in
/-- The count of a buffer that somebody holds a reference to is not 0. -/
theorem Counted.ne_zero {m : Mem n} {pc : Task → Pc n} (h : Counted m pc) {t : Task} {b : Fin n}
    (hb : (pc t).holds = some b) : (m.cache.bh b).bCount ≠ 0 := by
  have hpos : 0 < counts m b := h.pos (o := t) hb
  intro h0
  rw [counts, h0] at hpos
  exact absurd hpos (by decide)

theorem Exact.of_counted {s : System n Task} (hsafe : Safe s) (h : Counted s.mem s.pc) :
    Exact mode s := by
  refine ⟨h, fun t caller b s' hpc hs hpanic => ?_, fun t w b s' hpc hs _ => ?_⟩
  · obtain ⟨_, m, nx, hflow, rfl⟩ := System.step_flow hs
    rw [System.settle_pc, Function.update_self] at hpanic
    have hne := h.ne_zero (t := t) (b := b) (by rw [hpc]; rfl)
    rw [hpc] at hflow
    cases hflow with
    | locked => cases hpanic
    | freeing h0 => exact hne h0
    | released => cases hpanic
    | dropped => cases hpanic
  · have hready := hsafe.ready t
    rw [hpc] at hready
    refine h.eq_zero ?_
    rw [counts, hready.2]
    rfl

/-- A count that comes round to 0 is no longer exact. -/
theorem hasRoom_of_counted {s s' : System n Task} {a : Act n Task}
    (hs : System.Step mode s a s') (h : Counted s'.mem s'.pc) : HasRoom s a := by
  cases a with
  | step t =>
    show Room s.mem (s.pc t)
    cases hpc : s.pc t with
    | lookup w =>
      intro b hfind hfull
      obtain ⟨_, m, nx, hflow, rfl⟩ := System.step_flow hs
      rw [hpc] at hflow
      rw [System.settle_mem, System.settle_pc] at h
      cases hflow with
      | locked hp _ => cases hp
      | miss _ hnone =>
        rw [hfind] at hnone
        cases hnone
      | search _ hnone =>
        rw [hfind] at hnone
        cases hnone
      | hit hfound =>
        rw [hfind, Option.some.injEq, Option.some.injEq] at hfound
        subst hfound
        refine h.ne_zero (t := t) (b := b) (by rw [Function.update_self]; rfl) ?_
        rw [Mem.hold, Mem.store_self, hfull]
        rfl
    | _ => trivial
  | _ => trivial

/-- After a run in which callers give back only what they were given and no look-up raises a
count of 255, the references are counted, and they still are after one more step exactly
when that step raises no count of 255 either. -/
theorem references_exact [NeZero n] {s₀ s : System n Task} {as : List (Act n Task)}
    (h₀ : Fresh s₀)
    (h : Run (Guarded (fun s a => Owed s a ∧ HasRoom s a) (System.Step mode)) s₀ as s) :
    Exact mode s ∧ ∀ a s', System.Step mode s a s' → Owed s a →
      (Counted s'.mem s'.pc ↔ HasRoom s a) := by
  obtain ⟨hsafe, hreads, hcounted⟩ := h.invariant
    (P := fun s => Safe s ∧ (∀ t, (s.pc t).Reads) ∧ Counted s.mem s.pc)
    ⟨(honest_start h₀).toSafe, (honest_start h₀).reads, (honest_start h₀).counted⟩
    fun a l b hP hs => ⟨safe_step hP.1 hs.2, reads_step hP.1.alone hP.2.1 hs.2,
      counted_step hP.1 hP.2.1 hP.2.2 hs.2 hs.1.1 hs.1.2⟩
  refine ⟨.of_counted hsafe hcounted, fun a s' hs howed => ?_⟩
  exact ⟨hasRoom_of_counted hs, fun hroom => counted_step hsafe hreads hcounted hs howed hroom⟩

instance (s : System n Task) (a : Act n Task) : Decidable (Owed s a) :=
  match a with
  | .call _ (.brelse (some b)) => inferInstanceAs (Decidable (0 < s.mem.handed b))
  | .call _ (.want _) | .call _ (.brelse none) | .call _ (.llRwBlock ..) | .go _ | .step _
  | .intr _ | .setDirt .. | .setUptodate .. => isTrue trivial

instance (s : System n Task) (a : Act n Task) : Decidable (HasRoom s a) :=
  match a with
  | .step t => inferInstanceAs (Decidable (Room s.mem (s.pc t)))
  | .call .. | .go _ | .intr _ | .setDirt .. | .setUptodate .. => isTrue trivial

/-! ## Too many references

Task 0 reads block 5 of device 0x301, and then task 1 calls `getblk` for it 255 times.
Nobody releases anything. -/

namespace TooMany

open OtherBlock (start final alone getblkActs)

def read : List (Act 1 (Fin 2)) := alone ++ [.step 0]

def acts : List (Act 1 (Fin 2)) := read ++ (List.replicate 255 getblkActs).flatten

def release : List (Act 1 (Fin 2)) := acts ++ [.call 1 (.brelse (some 0)), .step 1]

def recycle : List (Act 1 (Fin 2)) :=
  acts ++ .call 1 (.want ⟨.getblk, 0x302, 9⟩) :: List.replicate 5 (.step 1)

theorem run_final {ok : System 1 (Fin 2) → Act 1 (Fin 2) → Prop} [∀ s a, Decidable (ok s a)]
    {as : List (Act 1 (Fin 2))} (P : System 1 (Fin 2) → Prop) [DecidablePred P]
    (h : (replay (restrict ok (System.next .linking)) start as).any fun t => decide (P t)) :
    Run (Guarded ok (System.Step .linking)) start as (final as) ∧ P (final as) :=
  run_guarded_replay_with P h

end TooMany

open OtherBlock TooMany in
theorem references_exact_one_read :
    Exact .linking (final read) ∧ (final read).mem.handed 0 = 1 ∧
      ((final read).mem.cache.bh 0).bCount = 1 := by
  have hrun : Run (Guarded (fun s a => Owed s a ∧ HasRoom s a) (System.Step .linking)) start read
      (final read) ∧ (final read).mem.handed 0 = 1 ∧ ((final read).mem.cache.bh 0).bCount = 1 :=
    run_final (fun s => s.mem.handed 0 = 1 ∧ (s.mem.cache.bh 0).bCount = 1)
      (by decide +kernel)
  exact ⟨(references_exact (fresh_boot 0x200000 fun _ => 0) hrun.1).1, hrun.2⟩

open OtherBlock TooMany in
/-- With 256 references the count is 0.  The release of one of them panics, and `getblk` for
another block recycles the buffer. -/
theorem count_comes_round :
    (Run (Guarded Owed (System.Step .linking)) start acts (final acts) ∧
      (final acts).mem.handed 0 = 256 ∧ ((final acts).mem.cache.bh 0).bCount = 0) ∧
    (Run (Guarded Owed (System.Step .linking)) start release (final release) ∧
      (final release).pc 1 = .panicked) ∧
    Run (Guarded Owed (System.Step .linking)) start recycle (final recycle) ∧
      (final recycle).mem.handed 0 = 256 ∧
      (final recycle).pc 1 = .gotBlk ⟨.getblk, 0x302, 9⟩ 0 ∧
      ((final recycle).mem.cache.bh 0).key = (0x302, 9) := by
  refine ⟨?_, ?_, ?_⟩
  · exact run_final (fun s => s.mem.handed 0 = 256 ∧ (s.mem.cache.bh 0).bCount = 0)
      (by decide +kernel)
  · exact run_final (fun s => s.pc 1 = .panicked) (by decide +kernel)
  · exact run_final (fun s => s.mem.handed 0 = 256 ∧
      s.pc 1 = .gotBlk ⟨.getblk, 0x302, 9⟩ 0 ∧ (s.mem.cache.bh 0).key = (0x302, 9))
      (by decide +kernel)

end Io
end CherryOS
