import CherryOS.Driver.Cooking

/-!
# The line discipline

`copy_to_cooked` tests `L_ICANON` in `c_iflag`, and compares a signed character with an
unsigned control character.  It is the reference discipline for the settings and the
characters for which these slips make no difference, and for no others.
-/

namespace CherryOS
namespace Driver

open Kernel

namespace Termios

/-- A character that should edit. -/
def Special (t : Termios) (c : BitVec 8) : Prop :=
  c = t.cCc V_KILL ∨ c = t.cCc V_ERASE ∨ c = t.cCc V_STOP ∨ c = t.cCc V_START

/-- What is done with a character is what the reference does with it. -/
structure Alike (t : Termios) (c : BitVec 8) : Prop where
  canon : t.Special c →
    ((t.cIflag &&& L_ICANON ≠ 0 ∧ c < 0x80) ↔ t.cLflag &&& L_ICANON ≠ 0)
  eof : t.cLflag &&& L_ICANON ≠ 0 → c = t.cCc V_KILL ∨ c = t.cCc V_ERASE → t.cCc V_EOF < 0x80

variable {t : Termios} {c : BitVec 8}

theorem reference_canon : t.reference.canon ↔ t.cLflag &&& L_ICANON ≠ 0 := decide_eq_true_iff

theorem reference_isCc {i : Nat} : t.reference.isCc i c ↔ c = t.cCc i := beq_iff_eq

theorem reference_edits : t.reference.Edits c ↔ t.Special c := by
  simp only [Discipline.Edits, reference_isCc, Special]

theorem coded_edits : t.coded.Edits c ↔ c < 0x80 ∧ t.Special c := by
  simp only [Discipline.Edits, coded_isCc, Special]
  tauto

theorem ends_eq (heof : t.cCc V_EOF < 0x80) : t.coded.ends = t.reference.ends := by
  funext c
  rw [Bool.eq_iff_iff, coded_ends, isCc_iff, Discipline.ends, Bool.or_eq_true, beq_iff_eq,
    reference_isCc]
  constructor
  · rintro (hnl | ⟨-, hc⟩)
    · exact Or.inl hnl
    · exact Or.inr hc
  · rintro (hnl | rfl)
    · exact Or.inl hnl
    · exact Or.inr ⟨heof, rfl⟩

/-- An editing character, where both disciplines take it for one. -/
theorem cook_eq_of_special (h : t.Alike c) (hcoded : t.cIflag &&& L_ICANON ≠ 0) (hlow : c < 0x80)
    (hreference : t.cLflag &&& L_ICANON ≠ 0) (s : Cooked) :
    t.coded.cook s c = t.reference.cook s c := by
  have hcc : ∀ i, t.coded.isCc i c = t.reference.isCc i c := fun i => by
    rw [Bool.eq_iff_iff, coded_isCc, reference_isCc, and_iff_right hlow]
  rw [Discipline.cook, Discipline.cook, if_pos (coded_canon.mpr hcoded),
    if_pos (reference_canon.mpr hreference), hcc, hcc, hcc, hcc]
  split_ifs with hkill herase
  · have hends := ends_eq (h.eof hreference (Or.inl (reference_isCc.mp hkill)))
    rw [Discipline.kill, Discipline.kill, hends]
  · have hends := ends_eq (h.eof hreference (Or.inr (reference_isCc.mp herase)))
    rw [Discipline.erase, Discipline.erase, hends]
  · rfl
  · rfl
  · rfl

theorem cook_eq (h : t.Alike c) (s : Cooked) : t.coded.cook s c = t.reference.cook s c := by
  by_cases hedits : t.Special c ∧ t.cLflag &&& L_ICANON ≠ 0
  · obtain ⟨hcoded, hlow⟩ := (h.canon hedits.1).mpr hedits.2
    exact cook_eq_of_special h hcoded hlow hedits.2 s
  · have hreference : ¬ (t.reference.canon ∧ t.reference.Edits c) := fun hboth =>
      hedits ⟨reference_edits.mp hboth.2, reference_canon.mp hboth.1⟩
    have hcoded : ¬ (t.coded.canon ∧ t.coded.Edits c) := fun hboth => by
      obtain ⟨hlow, hspecial⟩ := coded_edits.mp hboth.2
      exact hedits ⟨hspecial, (h.canon hspecial).mp ⟨coded_canon.mp hboth.1, hlow⟩⟩
    rw [Discipline.cook_of_not_edits hcoded, Discipline.cook_of_not_edits hreference]

/-- A line of at most one character tells the two disciplines apart. -/
theorem alike_of_cook
    (h : ∀ line, line.length ≤ 1 → t.coded.cook ⟨line, 0⟩ c = t.reference.cook ⟨line, 0⟩ c) :
    t.Alike c := by
  have hnil := congrArg Cooked.line (h [] (by decide))
  have hcanon : t.Special c →
      ((t.cIflag &&& L_ICANON ≠ 0 ∧ c < 0x80) ↔ t.cLflag &&& L_ICANON ≠ 0) := by
    intro hspecial
    constructor
    · rintro ⟨hcoded, hlow⟩
      by_contra hreference
      rw [Discipline.cook_nil_of_edits (coded_canon.mpr hcoded) (coded_edits.mpr ⟨hlow, hspecial⟩),
        Discipline.cook_of_not_edits fun hboth => reference_canon.mp hboth.1 hreference] at hnil
      cases hnil
    · intro hreference
      by_contra hnot
      rw [Discipline.cook_of_not_edits fun hboth =>
          hnot ⟨coded_canon.mp hboth.1, (coded_edits.mp hboth.2).1⟩,
        Discipline.cook_nil_of_edits (reference_canon.mpr hreference)
          (reference_edits.mpr hspecial)] at hnil
      cases hnil
  refine ⟨hcanon, fun hreference hback => ?_⟩
  by_contra hhigh
  -- the end of file at the end of the line is taken back by one of them
  have hspecial : t.Special c := hback.imp_right Or.inl
  obtain ⟨hcoded, hlow⟩ := (hcanon hspecial).mpr hreference
  have heof := congrArg Cooked.line (h [t.cCc V_EOF] (Nat.le_refl 1))
  have hcode : ¬ t.coded.ends (t.cCc V_EOF) := fun hends => by
    rcases coded_ends.mp hends with hnl | hcc
    · rw [hnl] at hhigh
      exact hhigh (by decide)
    · exact hhigh (isCc_iff.mp hcc).1
  have href : t.reference.ends (t.cCc V_EOF) := by
    rw [Discipline.ends, Bool.or_eq_true]
    exact Or.inr (reference_isCc.mpr rfl)
  rw [Discipline.cook_singleton (coded_canon.mpr hcoded)
      (hback.imp (fun hc => coded_isCc.mpr ⟨hlow, hc⟩) fun hc => coded_isCc.mpr ⟨hlow, hc⟩),
    Discipline.cook_singleton (reference_canon.mpr hreference)
      (hback.imp reference_isCc.mpr reference_isCc.mpr), if_neg hcode, if_pos href] at heof
  cases heof

theorem step_eq {b : BitVec 8} (h : ∀ c, t.mapChar b = some c → t.Alike c) (s : Cooked) :
    t.coded.step s b = t.reference.step s b := by
  have hcoded : t.coded.map b = t.mapChar b := rfl
  have hreference : t.reference.map b = t.mapChar b := rfl
  rw [Discipline.step, Discipline.step, hcoded, hreference]
  cases hmap : t.mapChar b with
  | none => rfl
  | some c => exact cook_eq (h c hmap) s

theorem run_eq {bytes : List (BitVec 8)}
    (h : ∀ b ∈ bytes, ∀ c, t.mapChar b = some c → t.Alike c) (s : Cooked) :
    t.coded.run s bytes = t.reference.run s bytes := by
  induction bytes generalizing s with
  | nil => rfl
  | cons b bytes ih =>
    have hstep := step_eq (h b List.mem_cons_self) s
    have hrest := ih (fun b' hb' => h b' (List.mem_cons_of_mem b hb')) (t.reference.step s b)
    rw [Discipline.run, List.foldl_cons, hstep]
    exact hrest

end Termios

/-! ## Queues with given contents -/

namespace TtyQueue

def empty : TtyQueue := { head := 0, tail := 0, buf := fun _ => 0 }

def ofList (bytes : List (BitVec 8)) : TtyQueue := bytes.foldl (fun q c => q.put c) empty

theorem ofList_valid (bytes : List (BitVec 8)) : (ofList bytes).Valid := by
  induction bytes using List.reverseRecOn with
  | nil => exact ⟨by decide, by decide⟩
  | append_singleton bytes c ih =>
    rw [ofList, List.foldl_append]
    exact ih.put c

theorem pending_ofList {bytes : List (BitVec 8)} (h : bytes.length ≤ 1023) :
    (ofList bytes).pending = bytes := by
  induction bytes using List.reverseRecOn with
  | nil => rfl
  | append_singleton bytes c ih =>
    rw [List.length_append, List.length_singleton] at h
    have hrest := ih (by omega)
    have hroom : ¬ (ofList bytes).FULL := fun hfull => by
      rw [full_iff (ofList_valid bytes), hrest] at hfull
      omega
    have hput := pending_put (ofList_valid bytes) hroom c
    rw [hrest] at hput
    rw [ofList, List.foldl_append]
    exact hput

end TtyQueue

namespace Terminal

/-- A terminal with a line in `secondary` and keys in `read_q`, at a blank console. -/
def typed (t : Termios) (line keys : List (BitVec 8)) : Terminal :=
  { tty :=
      { termios := t, stopped := 0, readQ := .ofList keys, writeQ := .empty
        secondary := .ofList line, data := 0 }
    console := Console.console80 0xB8000
    overrun := false }

theorem typed_valid (t : Termios) (line keys : List (BitVec 8)) : (typed t line keys).Valid :=
  ⟨TtyQueue.ofList_valid keys, TtyQueue.ofList_valid [], TtyQueue.ofList_valid line⟩

/-! ## The contract -/

/-- `copy_to_cooked` takes a prefix of `read_q`, all of it unless `secondary` is full, and
leaves what the reference discipline leaves. -/
def Disciplined (s : Terminal) : Prop :=
  ∃ p, s.tty.readQ.pending = p ++ s.copyToCooked.tty.readQ.pending ∧
    (s.copyToCooked.tty.readQ.EMPTY ∨ s.copyToCooked.tty.secondary.FULL) ∧
    s.copyToCooked.cooked = s.tty.termios.reference.run s.cooked p

theorem typed_key (t : Termios) (line : List (BitVec 8)) (b : BitVec 8) :
    (typed t line [b]).tty.readQ.pending = [b] :=
  TtyQueue.pending_ofList (Nat.succ_le_succ (Nat.zero_le _))

/-- One key, with a line of at most one character. -/
theorem cook_of_disciplined {t : Termios} {line : List (BitVec 8)} {b c : BitVec 8}
    (hmap : t.mapChar b = some c) (hline : line.length ≤ 1)
    (h : (typed t line [b]).Disciplined) :
    t.coded.cook ⟨line, 0⟩ c = t.reference.cook ⟨line, 0⟩ c := by
  obtain ⟨p, htaken, hdone, hreference⟩ := h
  obtain ⟨p', htakes⟩ := takes_copyToCooked (typed_valid t line [b])
  have hsame : p' = p := List.append_cancel_right (htakes.taken.symm.trans htaken)
  have hstart : (typed t line [b]).cooked = ⟨line, 0⟩ :=
    congrArg (Cooked.mk · 0) (TtyQueue.pending_ofList (by omega))
  rw [typed_key] at htaken
  rw [htakes.cooked, hsame, hstart] at hreference
  cases p with
  | nil =>
    -- with room for a key it is taken
    have hleft : (typed t line [b]).copyToCooked.cooked = ⟨line, 0⟩ := by
      rw [htakes.cooked, hsame, hstart]
      rfl
    exfalso
    rcases hdone with hempty | hfull
    · rw [(TtyQueue.empty_iff htakes.valid.readQ).mp hempty] at htaken
      cases htaken
    · have hlength := (TtyQueue.full_iff htakes.valid.secondary).mp hfull
      rw [show (typed t line [b]).copyToCooked.tty.secondary.pending = line from
        congrArg Cooked.line hleft] at hlength
      omega
  | cons b' p =>
    obtain ⟨rfl, hrest⟩ := List.cons_eq_cons.mp htaken
    obtain ⟨rfl, -⟩ := List.append_eq_nil_iff.mp hrest.symm
    have hcoded : t.coded.map b = some c := hmap
    have hreference' : t.reference.map b = some c := hmap
    have hstep : t.coded.step ⟨line, 0⟩ b = t.reference.step ⟨line, 0⟩ b := hreference
    rwa [Discipline.step, Discipline.step, hcoded, hreference'] at hstep

/-- For the keys that may be typed, the code is the discipline exactly when what they are
mapped to is handled alike. -/
theorem disciplined_iff (t : Termios) (keys : BitVec 8 → Prop) :
    (∀ s : Terminal, s.Valid → s.tty.termios = t → (∀ b ∈ s.tty.readQ.pending, keys b) →
      s.Disciplined) ↔ ∀ b, keys b → ∀ c, t.mapChar b = some c → t.Alike c := by
  constructor
  · intro h b hb c hmap
    refine Termios.alike_of_cook fun line hline => cook_of_disciplined hmap hline ?_
    refine h _ (typed_valid t line [b]) rfl fun b' hb' => ?_
    rw [typed_key, List.mem_singleton] at hb'
    rwa [hb']
  · rintro h s hvalid rfl hkeys
    obtain ⟨p, htakes⟩ := takes_copyToCooked hvalid
    refine ⟨p, htakes.taken, copyToCooked_done hvalid, ?_⟩
    rw [htakes.cooked]
    refine Termios.run_eq (fun b hb => h b (hkeys b ?_)) s.cooked
    rw [htakes.taken]
    exact List.mem_append_left _ hb

/-- The kernel's terminal, with `a` typed and the erase character after it: both are queued. -/
theorem erase_is_queued :
    (typed kernelTermios [] [0x61, 0x7F]).copyToCooked.cooked = ⟨[0x61, 0x7F], 0⟩ ∧
      kernelTermios.reference.run ⟨[], 0⟩ [0x61, 0x7F] = ⟨[], 0⟩ ∧
      ¬ (typed kernelTermios [] [0x61, 0x7F]).Disciplined := by
  have hqueued : (typed kernelTermios [] [0x61, 0x7F]).copyToCooked.cooked = ⟨[0x61, 0x7F], 0⟩ := by
    decide +kernel
  have herased : kernelTermios.reference.run ⟨[], 0⟩ [0x61, 0x7F] = ⟨[], 0⟩ := by decide +kernel
  refine ⟨hqueued, herased, ?_⟩
  rintro ⟨p, htaken, -, hreference⟩
  have hkeys : (typed kernelTermios [] [0x61, 0x7F]).tty.readQ.pending = [0x61, 0x7F] := by
    decide +kernel
  have hrest : (typed kernelTermios [] [0x61, 0x7F]).copyToCooked.tty.readQ.pending = [] := by
    decide +kernel
  have hstart : (typed kernelTermios [] [0x61, 0x7F]).cooked = ⟨[], 0⟩ := by decide +kernel
  rw [hkeys, hrest, List.append_nil] at htaken
  rw [hqueued, hstart, ← htaken] at hreference
  cases hreference.trans herased

end Terminal

end Driver
end CherryOS
