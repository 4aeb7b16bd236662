import CherryOS.Kernel.ManyTasks

/-!
# What an exit tears down

`do_exit` calls `free_page_tables` on the window of the task twice.  For a window that was
copied the first call takes back its tables and pages, and the second does nothing.  The
table of task 1 maps the first megabyte, whose frames were never handed out, so
`free_page` panics on its first entry.
-/

namespace CherryOS
namespace Kernel

open Mm Lib

/-- The frame has a place in `mem_map` and is a table of the window of a slot, or a page that
one of these tables maps. -/
def WindowFrame (m : Mem) (nr f : Nat) : Prop :=
  256 ≤ f ∧ f < 4096 ∧ ∃ k < 16, Table (m.phys (16 * nr + k)) ∧
    (frameOf (m.phys (16 * nr + k)) = f ∨
      ∃ j < 1024, m.phys (m.entryWord (16 * nr + k) j) &&& 1 = 1 ∧
        frameOf (m.phys (m.entryWord (16 * nr + k) j)) = f)

/-- The window of a slot is gone, its frames are free, and nothing else has changed. -/
structure TornDown (m m' : Mem) (nr : Nat) : Prop where
  empty : ∀ k < 16, m'.phys (16 * nr + k) &&& 1 = 0
  freed : ∀ f, WindowFrame m nr f → m.memMap (f - 256) = 1 ∧ m'.memMap (f - 256) = 0
  kept : ∀ f, 256 ≤ f → f < 4096 → ¬ WindowFrame m nr f → m'.memMap (f - 256) = m.memMap (f - 256)
  dir : ∀ d < 1024, ¬ InWindow nr 16 d → m'.phys d = m.phys d
  table : ∀ d < 1024, ¬ InWindow nr 16 d → Table (m.phys d) → ∀ j < 1024,
    m'.phys (m.entryWord d j) = m.phys (m.entryWord d j)

/-- Both calls of `free_page_tables` return; the first tears the window down, and the second
changes nothing. -/
def State.TearsDown (s : State) (nr : Nat) : Prop :=
  ∃ m, s.mem.freePageTables (getSegmentBase ((s.task s.current).ldt 1))
      (getSegmentLimit (s.task s.current).ldt 0x000F) = .ok m ∧
    m.freePageTables (getSegmentBase ((s.task s.current).ldt 2))
      (getSegmentLimit (s.task s.current).ldt 0x0017) = .ok m ∧ TornDown s.mem m nr

section
variable {managed : Nat → Prop} {union : Fin NUMBER_OF_TASKS → Option Nat} {m m' : Mem}

/-- The frames of a window are those that its entries hold. -/
theorem windowFrame_of_holds {nr f : Nat} (hlo : 256 ≤ f) (hhi : f < 4096) {o : Owner} {d : Nat}
    (hd : o.dir = some d) (hin : InWindow nr 16 d) (ho : holds union m o = some f) :
    WindowFrame m nr f := by
  obtain ⟨k, hk, rfl⟩ := hin
  refine ⟨hlo, hhi, k, hk, ?_⟩
  cases o with
  | taskUnion _ => cases hd
  | dirEntry e =>
    cases hd
    rw [holds] at ho
    split at ho
    · rename_i hc
      exact ⟨hc.2, Or.inl (Option.some.inj ho)⟩
    · cases ho
  | tabEntry e j =>
    cases hd
    rw [holds] at ho
    split at ho
    · rename_i hc
      exact ⟨hc.2.2.1, Or.inr ⟨j, hc.2.1, hc.2.2.2, Option.some.inj ho⟩⟩
    · cases ho

theorem WindowFrame.holder {nr f : Nat} (h : WindowFrame m nr f) (hnr : nr < 64) :
    ∃ o d, o.dir = some d ∧ InWindow nr 16 d ∧ holds union m o = some f ∧
      ∀ j, o = .tabEntry 16 j → nr = 1 := by
  obtain ⟨_, _, k, hk, ht, heq | ⟨j, hj, hp, heq⟩⟩ := h
  · refine ⟨.dirEntry (16 * nr + k), _, rfl, ⟨k, hk, rfl⟩, ?_, fun j hj => nomatch hj⟩
    rw [holds_dirEntry (by omega) ht, heq]
  · refine ⟨.tabEntry (16 * nr + k) j, _, rfl, ⟨k, hk, rfl⟩, ?_, fun j' hj' => ?_⟩
    · rw [holds_tabEntry (by omega) hj ht hp, heq]
    · have : 16 * nr + k = 16 := (Owner.tabEntry.inj hj').1
      omega

theorem holds_of_zero {o : Owner} {d : Nat} (ho : o.dir = some d) (h0 : m.phys d = 0) :
    holds union m o = none := by
  have hnt : ¬ Table (m.phys d) := by
    rw [h0]
    decide
  cases o with
  | taskUnion _ => cases ho
  | dirEntry e =>
    cases ho
    exact holds_dirEntry_none hnt
  | tabEntry e j =>
    cases ho
    exact holds_tabEntry_no_table hnt

/-- When a window has been emptied and nothing else has changed hands, its frames are free
and the others are as they were. -/
theorem freed_of_empty (h : MmInv managed union m) (h' : MmInv managed union m') {nr : Nat}
    (hnr : nr < 64) (h2 : 2 ≤ nr) (hon : OnlyIn (InWindow nr 16) union m m')
    (hzero : ∀ k < 16, m'.phys (16 * nr + k) = 0) :
    (∀ f, WindowFrame m nr f → m.memMap (f - 256) = 1 ∧ m'.memMap (f - 256) = 0) ∧
      ∀ f, 256 ≤ f → f < 4096 → ¬ WindowFrame m nr f →
        m'.memMap (f - 256) = m.memMap (f - 256) := by
  have hgone : ∀ {o d}, o.dir = some d → InWindow nr 16 d → holds union m' o = none := by
    rintro o d ho ⟨k, hk, rfl⟩
    exact holds_of_zero ho (hzero k hk)
  constructor
  · intro f hf
    obtain ⟨o, d, hod, hin, ho, h16⟩ := hf.holder hnr
    have hm : managed f := by
      refine (h.named o f ho).resolve_right fun ⟨j, hj⟩ => ?_
      have := h16 j hj
      omega
    refine ⟨h.memMap_of_holds hm ho, ?_⟩
    rcases h'.balanced.ownership hm with ⟨h0, _⟩ | ⟨_, o', ho', _⟩
    · exact BitVec.eq_of_toNat_eq h0
    · -- its owner was outside the window, and had it before
      have hout : ∀ e, o'.dir = some e → ¬ InWindow nr 16 e := by
        intro e he hin'
        rw [hgone he hin'] at ho'
        cases ho'
      rw [hon.holds o' hout] at ho'
      rw [h.balanced.alone f o' o hm ho' ho] at hout
      exact absurd hin (hout d hod)
  · intro f hlo hhi hno
    refine h.memMap_eq_at h' (by omega) fun o => ?_
    rw [Nat.sub_add_cancel hlo]
    by_cases hin : ∃ d, o.dir = some d ∧ InWindow nr 16 d
    · obtain ⟨d, hod, hin⟩ := hin
      rw [hgone hod hin]
      refine iff_of_false (fun hc => nomatch hc) fun ho => hno ?_
      exact windowFrame_of_holds hlo hhi hod hin ho
    · rw [hon.holds o fun d hd hD => hin ⟨d, hd, hD⟩]

end

/-- The window of a task that was copied is torn down by the first call, and the second does
nothing. -/
theorem KInv.tearsDown {managed : Nat → Prop} {s : State} (h : KInv managed s)
    {i : Fin NUMBER_OF_TASKS} (hi : s.tasksPtr i = some s.current) (h2 : 2 ≤ i.val)
    (hlive : (s.task s.current).state ≠ .zombie) : s.TearsDown i := by
  have hi64 : i.val < 64 := i.isLt
  obtain ⟨limit, n, _, hn, _, _, hbc, hbd, hlim, hent, _, _, hpres, hrest⟩ :=
    (h.live i _ hi hlive).segments hi64
  have htab : ∀ k < 16, s.mem.phys (16 * i.val + k) = 0 ∨ Table (s.mem.phys (16 * i.val + k)) := by
    intro k hk
    by_cases hkn : k < n
    · exact Or.inr ((hpres k hkn).2 (by omega))
    · exact Or.inl (hrest k (by omega) hk)
  obtain ⟨m, hm, hinv, hon, hz⟩ := h.mm.freeWindow hi64 h2 (by omega) hent
    fun k hk => htab k (by omega)
  have hon16 : OnlyIn (InWindow i 16) s.unionFrame s.mem m :=
    hon.mono fun d ⟨k, hk, hd⟩ => ⟨k, by omega, hd⟩
  have hzero : ∀ k < 16, m.phys (16 * i.val + k) = 0 := by
    intro k hk
    by_cases hkn : k < n
    · exact hz k hkn
    · rw [hon.dir _ (by omega) fun ⟨l, hl, heq⟩ => by omega, hrest k (by omega) hk]
  refine ⟨m, by rw [hbc, hlim, hm], ?_,
    ⟨fun k hk => ?_, ?_, ?_, hon16.dir, fun d hd hout ht j hj => ?_⟩⟩
  · rw [hbd, Mem.freePageTables, if_neg (not_not.mpr (MmInv.windowBase_aligned hi64)),
      if_neg (MmInv.windowBase_ne_zero hi64 (by omega)), hent]
    refine Mem.freeDirEnts_absent fun k hk => ?_
    have hk := List.mem_range.mp hk
    rw [MmInv.wordAt_window hi64, hzero k (by omega)]
    decide
  · rw [hzero k hk]
    decide
  · exact (freed_of_empty h.mm hinv hi64 h2 hon16 hzero).1
  · exact (freed_of_empty h.mm hinv hi64 h2 hon16 hzero).2
  · refine Mem.freePageTables_phys hi64 (by omega) hm fun k hk => ?_
    rw [hent] at hk
    have hne : d ≠ 16 * i.val + k := fun hc => hout ⟨k, by omega, hc⟩
    have := h.mm.entryWord_ge hd ht j
    exact ⟨by omega, h.mm.entryWord_elsewhere hd (by omega) hne ht hj (htab k (by omega))⟩

/-- The first entry of the table of task 1 maps the page at address 0, which cannot be freed. -/
theorem KInv.init_panics {managed : Nat → Prop} {s : State} (h : KInv managed s)
    (hfirst : FirstWindows s) (hi : s.tasksPtr 1 = some s.current)
    (hlive : (s.task s.current).state ≠ .zombie) :
    s.mem.freePageTables (getSegmentBase ((s.task s.current).ldt 1))
      (getSegmentLimit (s.task s.current).ldt 0x000F) = .error (.panic "free addr < 1MB\n") := by
  obtain ⟨limit, n, hul, _, _, _, hbc, _, hlim, hent, hone, hfour, _, _⟩ :=
    (h.live 1 _ hi hlive).segments (by decide)
  obtain ⟨n', rfl⟩ : ∃ n', n = n' + 1 := by
    refine Nat.exists_eq_add_one.mpr ?_
    rcases hul with hl | hl
    · have := hfour hl
      omega
    · have := hone hl
      omega
  have hhold := hfirst.init (by rw [hi]; exact Option.some_ne_none _)
  rw [holds] at hhold
  split at hhold
  · rename_i hc
    obtain ⟨_, _, ht, hp⟩ := hc
    have hword : wordAt ((windowBase (1 : Fin NUMBER_OF_TASKS) >>> 22) * 4) 0 = 16 :=
      MmInv.wordAt_window (by decide) 0
    have hpres : ¬ s.mem.phys 16 &&& 1 = 0 := by
      rw [ht.1]
      decide
    have hent₀ : wordAt (pageAddr (s.mem.phys 16)) 0 = s.mem.entryWord 16 0 := by
      rw [wordAt_pageAddr, Mem.entryWord]
    obtain ⟨js, hjs⟩ : ∃ js, tabIndices = 0 :: js := by
      unfold tabIndices
      exact ⟨_, List.range_succ_eq_map⟩
    rw [hbc, hlim, Mem.freePageTables, if_neg (not_not.mpr (MmInv.windowBase_aligned (by decide))),
      if_neg (MmInv.windowBase_ne_zero (by decide) (by decide)), hent, List.range_succ_eq_map,
      Mem.freeDirEnts]
    rw [hword, if_neg hpres, hjs, Mem.freeTabEnts_low, error_bind]
    · rw [hent₀]
      exact hp
    · rw [hent₀, Option.some.inj hhold]
      decide
  · cases hhold

/-- In every run, an exit of a task other than `task0` tears its window down exactly when the
task is not task 1. -/
theorem exit_tearsDown_iff {b : Boot} {ls : List Label} {s t : State}
    (h : Run (Steps State.next) b.state ls s) {nr : Fin NUMBER_OF_TASKS} (h0 : nr ≠ 0)
    (ht : s.onCpu nr = some t) : t.TearsDown nr ↔ nr ≠ 1 := by
  obtain ⟨hs, hfirst⟩ := b.firstWindows_of_run h
  obtain ⟨p, hp, hz, rfl⟩ := State.onCpu_spec ht
  have hinv := hs.inv.withCurrent p
  constructor
  · rintro ⟨m, hm, _⟩ rfl
    rw [hinv.init_panics (hfirst.withCurrent p) hp hz] at hm
    cases hm
  · intro h1
    have : nr.val ≠ 0 := fun hc => h0 (Fin.ext hc)
    have : nr.val ≠ 1 := fun hc => h1 (Fin.ext hc)
    exact hinv.tearsDown hp (by omega) hz

theorem exit_tearsDown_child_of_init : ∃ s t,
    Run (Steps State.next) scheduledBoot.state [.fork 0 zeroRegs, .fork 1 zeroRegs] s ∧
      s.onCpu 2 = some t ∧ t.TearsDown (2 : Fin NUMBER_OF_TASKS) := by
  obtain ⟨s, hs, hstage⟩ := stage_two
  obtain ⟨s', hs', hgrown⟩ := hstage.fork (by decide) (by decide)
  obtain ⟨q, hq, hlive⟩ := hgrown.child 2 rfl
  rw [schedInit_bootOf16MB] at hs
  have hrun : Run (Steps State.next) scheduledBoot.state [.fork 0 zeroRegs, .fork 1 zeroRegs] s' :=
    (Run.single hs).append (Run.single hs')
  have ht := State.onCpu_of hq hlive
  exact ⟨s', _, hrun, ht, (exit_tearsDown_iff hrun (by decide) ht).mpr (by decide)⟩

/-- Task 1 cannot exit. -/
theorem exit_of_init_panics : ∃ s t,
    Run (Steps State.next) bootOf16MB.state [.fork 0 zeroRegs] s ∧ s.onCpu 1 = some t ∧
      t.doExit 0 = .error (.panic "free addr < 1MB\n") ∧ ¬ t.TearsDown (1 : Fin NUMBER_OF_TASKS) := by
  have hsome : ((State.next bootOf16MB.state (.fork 0 zeroRegs)).bind (·.onCpu 1)).isSome := by
    decide +kernel
  obtain ⟨t, hst⟩ := Option.isSome_iff_exists.mp hsome
  obtain ⟨s, hs, ht⟩ := Option.bind_eq_some_iff.mp hst
  have hrun : Run (Steps State.next) bootOf16MB.state [.fork 0 zeroRegs] s := Run.single hs
  obtain ⟨hsound, hfirst⟩ := bootOf16MB.firstWindows_of_run hrun
  obtain ⟨p, hp, hz, rfl⟩ := State.onCpu_spec ht
  have hpanic := (hsound.inv.withCurrent p).init_panics (hfirst.withCurrent p) hp hz
  refine ⟨s, _, hrun, ht, ?_, ?_⟩
  · rw [State.doExit, State.beginExit, State.freeWindows, hpanic]
    rfl
  · rintro ⟨m, hm, _⟩
    rw [hpanic] at hm
    cases hm

end Kernel
end CherryOS
