import CherryOS.Kernel.AddressSpace

/-!
# What exit does

`beginExit` empties the window of the task, through its code and once more through its
data descriptor, and makes it a zombie.  The second teardown finds nothing.  `KInv` says
that none of it panics, and it holds again after the father has been told.
-/

namespace CherryOS
namespace Kernel

open Mm Lib

namespace KInv

variable {managed : Nat → Prop} {s : State}

/-- The two teardowns of the window of the current task. -/
theorem freeWindows (h : KInv managed s) {i : Fin NUMBER_OF_TASKS}
    (hi : s.tasksPtr i = some s.current) (h2 : 2 ≤ i.val)
    (hlive : (s.task s.current).state ≠ .zombie) :
    ∃ m', s.freeWindows = .ok m' ∧ MmInv managed s.unionFrame m' ∧
      OnlyIn (InWindow i 16) s.unionFrame s.mem m' ∧ ∀ k < 16, m'.phys (16 * i.val + k) = 0 := by
  have hi64 : i.val < 64 := i.isLt
  obtain ⟨limit, n, _, hn, _, _, hbc, hbd, hlim, hent, _, _, hpres, hrest⟩ :=
    (h.live i _ hi hlive).segments hi64
  obtain ⟨m₁, hm₁, h₁, hon₁, hz₁⟩ := h.mm.freeWindow hi64 h2 (by omega) hent
    fun k hk => Or.inr ((hpres k hk).2 (by omega))
  obtain ⟨m₂, hm₂, h₂, hon₂, hz₂⟩ := h₁.freeWindow hi64 h2 (by omega) hent
    fun k hk => Or.inl (hz₁ k hk)
  have hboth := hon₁.trans hon₂
  refine ⟨m₂, ?_, h₂, hboth.mono ?_, fun k hk => ?_⟩
  · unfold State.freeWindows
    simp only [hbc, hbd, hlim]
    rw [hm₁, ok_bind, hm₂]
  · exact fun d ⟨k, hk, hd⟩ => ⟨k, by omega, hd⟩
  · by_cases hkn : k < n
    · exact hz₂ k hkn
    · rw [hboth.dir _ (by omega), hrest k (by omega) hk]
      intro ⟨l, hl, heq⟩
      omega

theorem beginExit (h : KInv managed s) {i : Fin NUMBER_OF_TASKS}
    (hi : s.tasksPtr i = some s.current) (h2 : 2 ≤ i.val)
    (hlive : (s.task s.current).state ≠ .zombie) (code : Int32) :
    ∃ s', s.beginExit code = .ok s' ∧ KInv managed s' ∧ Tasks.Exited s.toTasks s'.toTasks ∧
      s'.lastPid = s.lastPid := by
  obtain ⟨m', hm', hinv, hon, hzero⟩ := h.freeWindows hi h2 hlive
  have hex := Tasks.becomeZombie_spec code s.toTasks
  obtain ⟨s', hs'⟩ : ∃ s', s' =
    { s with toTasks := s.toTasks.becomeZombie code, mem := m' } := ⟨_, rfl⟩
  have htasks : s'.toTasks = s.toTasks.becomeZombie code := by rw [hs']
  have hmem : s'.mem = m' := by rw [hs']
  rw [← htasks] at hex
  have hunion : s'.unionFrame = s.unionFrame := by
    funext j
    rw [Tasks.unionFrame, hex.tasksPtr, Tasks.unionFrame]
  have hself : ∀ j, s.tasksPtr j = some s.current → j = i := fun j hj => h.ptr_inj hj hi
  have hother : ∀ j q, j ≠ i → s.tasksPtr j = some q → q ≠ s.current :=
    fun j q hj hq hc => hj (hself j (hc ▸ hq))
  have hwindows : ∀ j : Fin NUMBER_OF_TASKS, j ≠ i → ∀ k < 16,
      s'.mem.phys (16 * j.val + k) = s.mem.phys (16 * j.val + k) := by
    intro j hj
    rw [hmem]
    exact outside_window hon le_rfl j.isLt fun hc => hj (Fin.ext hc)
  refine ⟨s', ?_, ⟨by rw [hunion, hmem]; exact hinv, ?_, ?_, ?_, ?_, ?_⟩, hex, by rw [hs']⟩
  · rw [State.beginExit, hm', ok_bind, hs']
  · rw [hex.tasksPtr, h.slot0]
  · have h0 : (0 : Fin NUMBER_OF_TASKS) ≠ i := by
      intro hc
      rw [← hc] at h2
      exact absurd h2 (by decide)
    rw [hex.state _ (hother 0 .task0 h0 h.slot0)]
    exact h.idle
  · intro j q hj hq
    rw [hex.tasksPtr] at hq
    exact h.frame j q hj hq
  · intro j q hq hz
    rw [hex.tasksPtr] at hq
    by_cases hji : j = i
    · rw [hji, hi] at hq
      cases hq
      exact absurd hex.self hz
    · rw [hex.state q (hother j q hji hq)] at hz
      rw [(hex.keeps q).ldt]
      exact (h.live j q hq hz).congr (hwindows j hji)
  · intro j hj hall k hk
    by_cases hji : j = i
    · rw [hji, hmem]
      exact hzero k hk
    · rw [hwindows j hji k hk]
      refine h.empty j hj (fun q hq => ?_) k hk
      rw [← hex.state q (hother j q hji hq)]
      exact hall q (by rw [hex.tasksPtr, hq])

/-- A signal changes nothing that `KInv` speaks of. -/
theorem signal (h : KInv managed s) (p : TaskPtr) (sig : U32) :
    KInv managed (s.setTask p { s.task p with signal := sig }) := by
  refine h.congr h.mm rfl (fun _ _ => rfl) fun nr q _ => ?_
  have hstate : ((s.setTask p { s.task p with signal := sig }).task q).state =
      (s.task q).state := Tasks.setTask_same (·.state) (by rfl) q
  exact ⟨Tasks.setTask_same (·.ldt) (by rfl) q, by rw [hstate]⟩

/-- Releasing a zombie gives its frame back. -/
theorem release (h : KInv managed s) {i : Fin NUMBER_OF_TASKS} {p : TaskPtr} (h0 : i ≠ 0)
    (hi : s.tasksPtr i = some p) (hz : (s.task p).state = .zombie) :
    ∃ s' tr, s.release p = .ok (s', tr) ∧ KInv managed s' ∧
      ∀ j, j ≠ i → s'.tasksPtr j = s.tasksPtr j := by
  obtain ⟨f, hf, hp⟩ := h.frame i p h0 hi
  have hfind : (List.finRange NUMBER_OF_TASKS).find? (fun j => s.tasksPtr j = some p) = some i := by
    cases hres : (List.finRange NUMBER_OF_TASKS).find? fun j => s.tasksPtr j = some p with
    | none =>
      have := List.find?_eq_none.mp hres i (List.mem_finRange i)
      simp [hi] at this
    | some j =>
      have hj : s.tasksPtr j = some p := by simpa using List.find?_some hres
      rw [h.ptr_inj hj hi]
  have hu : s.unionFrame i = some f := by
    rw [Tasks.unionFrame, hi, hp]
    show some ((Mem.frameAddr f).toNat / 4096) = some f
    rw [Mem.frameAddr_toNat hf, Nat.mul_div_cancel _ (by decide)]
  have haddr : (s.taskAddr p).toNat = f * 4096 := by
    rw [hp]
    exact Mem.frameAddr_toNat hf
  obtain ⟨m', hm', hphys, hinv, _⟩ := h.mm.freeUnion hu haddr
  obtain ⟨s', hs'⟩ : ∃ s', s' = { s.setSlot i none with mem := m' } := ⟨_, rfl⟩
  have hptr : ∀ j, s'.tasksPtr j = if j = i then none else s.tasksPtr j := by
    intro j
    rw [hs']
    exact Tasks.setSlot_tasksPtr _ _ _ _
  have hother : ∀ j q, s'.tasksPtr j = some q → j ≠ i ∧ s.tasksPtr j = some q := by
    intro j q hq
    rw [hptr] at hq
    split at hq
    · cases hq
    · rename_i hj
      exact ⟨hj, hq⟩
  have hmem : s'.mem = m' := by rw [hs']
  have htask : s'.task = s.task := by rw [hs']; rfl
  have hunion : s'.unionFrame = Function.update s.unionFrame i none := by
    funext j
    rw [Tasks.unionFrame, hptr]
    by_cases hj : j = i
    · rw [if_pos hj, hj, Function.update_self]
    · rw [if_neg hj, Function.update_of_ne hj, Tasks.unionFrame]
  have hk' : KInv managed s' := by
    refine ⟨by rw [hunion, hmem]; exact hinv, ?_, by rw [htask]; exact h.idle, ?_, ?_, ?_⟩
    · rw [hptr, if_neg (Ne.symm h0), h.slot0]
    · exact fun j q hj hq => h.frame j q hj (hother j q hq).2
    · intro j q hq hz'
      rw [htask] at hz' ⊢
      exact (h.live j q (hother j q hq).2 hz').congr fun k _ => by rw [hmem, hphys]
    · intro j hj hall k hk
      rw [hmem, hphys]
      refine h.empty j hj (fun q hq => ?_) k hk
      by_cases hji : j = i
      · rw [hji, hi] at hq
        cases hq
        exact hz
      · rw [← htask]
        exact hall q (by rw [hptr, if_neg hji, hq])
  refine ⟨s'.schedule.1, s'.schedule.2, ?_, hk'.schedule, fun j hj => ?_⟩
  rotate_left
  · show s'.toTasks.schedule.1.tasksPtr j = _
    rw [Tasks.schedule_tasksPtr, hptr, if_neg hj]
  unfold State.release
  simp only [hfind]
  show (s.mem.freePage _ >>= _) = _
  rw [hm', ok_bind, hs']

/-- `do_exit` never panics and keeps `KInv`, whether or not a father is found. -/
theorem doExit (h : KInv managed s) {i : Fin NUMBER_OF_TASKS}
    (hi : s.tasksPtr i = some s.current) (h2 : 2 ≤ i.val)
    (hlive : (s.task s.current).state ≠ .zombie) (code : Int32) :
    ∃ s' tr, s.doExit code = .ok (s', tr) ∧ KInv managed s' ∧
      ∀ j, j ≠ i → s'.tasksPtr j = s.tasksPtr j := by
  obtain ⟨s₁, hs₁, hk₁, hex, _⟩ := h.beginExit hi h2 hlive code
  have h0 : i ≠ 0 := by
    intro hc
    rw [hc] at h2
    exact absurd h2 (by decide)
  have htell : ∃ s₂ tr, s₁.tellFather (s₁.task s₁.current).father = .ok (s₂, tr) ∧
      KInv managed s₂ ∧ ∀ j, j ≠ i → s₂.tasksPtr j = s₁.tasksPtr j := by
    unfold State.tellFather
    split
    · exact ⟨s₁, .back, rfl, hk₁, fun _ _ => rfl⟩
    · split
      · exact ⟨_, .back, rfl, hk₁.signal _ _, fun _ _ => rfl⟩
      · refine hk₁.release h0 (p := s₁.current) ?_ ?_
        · rw [hex.tasksPtr, hex.current, hi]
        · rw [hex.current]
          exact hex.self
  obtain ⟨s₂, tr, hs₂, hk₂, hptr₂⟩ := htell
  rw [State.doExit, hs₁, ok_bind, hs₂, ok_bind]
  rw [hex.tasksPtr] at hptr₂
  cases tr with
  | switchTo nr => exact ⟨s₂, _, rfl, hk₂, hptr₂⟩
  | back =>
    refine ⟨_, _, rfl, hk₂.schedule, fun j hj => ?_⟩
    show s₂.toTasks.schedule.1.tasksPtr j = _
    rw [Tasks.schedule_tasksPtr, hptr₂ j hj]

end KInv

end Kernel
end CherryOS
