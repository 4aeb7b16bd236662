import Mathlib

/-!
# Linked lists in pointer fields

A node carries its links as fields, so a list is read off two functions: `next`, and for
a doubly linked one `prev`.  `Chain next o l` says that the nodes reached from the
pointer `o` are those of `l`, in order, and that the last one points nowhere.  `DChain`
adds the back links, and `Ring` is a circular doubly linked list, which has a first node
only for who holds a pointer to it.

An operation on such a list is a handful of stores.  The rules below ask what the links
are after them at each node, and say which list they then are.
-/

namespace CherryOS
namespace Lib

variable {α : Type*}

/-- `y` follows `x`, in both directions. -/
def Linked (next prev : α → Option α) (x y : α) : Prop := next x = some y ∧ prev y = some x

structure Chain (next : α → Option α) (o : Option α) (l : List α) : Prop where
  head : l.head? = o
  links : l.IsChain fun x y => next x = some y
  last : ∀ x ∈ l.getLast?, next x = none
  nodup : l.Nodup

structure DChain (next prev : α → Option α) (o : Option α) (l : List α) : Prop where
  head : l.head? = o
  first : ∀ x ∈ l.head?, prev x = none
  links : l.IsChain (Linked next prev)
  last : ∀ x ∈ l.getLast?, next x = none
  nodup : l.Nodup

structure Ring (next prev : α → Option α) (c : Cycle α) : Prop where
  links : c.Chain (Linked next prev)
  nodup : c.Nodup

/-- The first node from `o` on that satisfies `p`, in at most `k` steps. -/
def search (next : α → Option α) (p : α → Bool) : Nat → Option α → Option (Option α)
  | _, none => some none
  | 0, some _ => none
  | k + 1, some a => if p a then some (some a) else search next p k (next a)

/-! ## Chains -/

namespace Chain

variable {next next' : α → Option α} {o : Option α} {l : List α} {a b : α}

theorem empty (next : α → Option α) : Chain next none [] :=
  ⟨rfl, List.isChain_nil, by simp, List.nodup_nil⟩

theorem single (h : next a = none) : Chain next (some a) [a] :=
  ⟨rfl, List.isChain_singleton a, by simpa using h, List.nodup_singleton a⟩

theorem head_eq (h : Chain next o (a :: l)) : o = some a := h.head.symm

/-- The chain of a null pointer is empty. -/
theorem eq_nil (h : Chain next none l) : l = [] := List.head?_eq_none_iff.mp h.head

theorem exists_cons (h : Chain next (some a) l) : ∃ m, l = a :: m := by
  cases l with
  | nil => exact absurd h.head (by simp)
  | cons x m =>
    have hx : x = a := by simpa using h.head
    exact ⟨m, by rw [hx]⟩

theorem tail (h : Chain next o (a :: l)) : Chain next (next a) l := by
  obtain ⟨hfirst, hlinks⟩ := List.isChain_cons.mp h.links
  refine ⟨?_, hlinks, ?_, (List.nodup_cons.mp h.nodup).2⟩
  · cases l with
    | nil => exact (h.last a rfl).symm
    | cons b m => exact (hfirst b rfl).symm
  · intro x hx
    apply h.last
    cases l with
    | nil => cases hx
    | cons b m => rwa [List.getLast?_cons_cons]

theorem congr (h : Chain next o l) (hn : ∀ x ∈ l, next' x = next x) : Chain next' o l where
  head := h.head
  links := h.links.imp_of_mem_imp fun x _ hx _ hxy => (hn x hx).trans hxy
  last x hx := (hn x (List.mem_of_getLast? hx)).trans (h.last x hx)
  nodup := h.nodup

/-- A node is linked behind the last one. -/
theorem concat [DecidableEq α] (h : Chain next o l) (hb : l.getLast? = some b) (ha : a ∉ l)
    (hnext : ∀ x ∈ l, next' x = if x = b then some a else next x)
    (hlast : next' a = none) : Chain next' o (l ++ [a]) := by
  have hne : l ≠ [] := by
    intro e
    simp [e] at hb
  refine ⟨?_, ?_, ?_, ?_⟩
  · rw [List.head?_append_of_ne_nil _ hne]
    exact h.head
  · refine List.IsChain.append ?_ (List.isChain_singleton a) ?_
    · refine h.links.imp_of_mem_imp fun x y hx _ hxy => ?_
      rw [hnext x hx, if_neg, hxy]
      intro e
      have hnone := h.last b hb
      rw [← e, hxy] at hnone
      cases hnone
    · intro x hx y hy
      have hxb : x = b := Option.some.inj ((Option.mem_def.mp hx).symm.trans hb)
      have hya : y = a := by simpa using hy.symm
      rw [hnext x (List.mem_of_getLast? hx), if_pos hxb, hya]
  · simpa using hlast
  · exact List.nodup_append.mpr ⟨h.nodup, List.nodup_singleton a, by
      intro x hx y hy e
      rw [List.mem_singleton.mp hy] at e
      exact ha (e ▸ hx)⟩

/-- The nodes reached from a pointer are determined by the links. -/
theorem unique {m : List α} (h : Chain next o l) (h' : Chain next o m) : l = m := by
  induction l generalizing o m with
  | nil =>
    have ho : o = none := h.head.symm
    subst ho
    exact h'.eq_nil.symm
  | cons a l ih =>
    have ho := h.head_eq
    subst ho
    obtain ⟨m, rfl⟩ := h'.exists_cons
    rw [ih h.tail h'.tail]

/-- A search that may take as many steps as the chain has nodes ends. -/
theorem search_eq {p : α → Bool} {k : Nat} (h : Chain next o l) (hk : l.length ≤ k) :
    search next p k o = some (l.find? p) := by
  induction l generalizing o k with
  | nil =>
    have ho : o = none := h.head.symm
    subst ho
    cases k <;> rfl
  | cons a l ih =>
    have ho := h.head_eq
    subst ho
    cases k with
    | zero => simp at hk
    | succ k =>
      have hrest := ih h.tail (Nat.le_of_succ_le_succ hk)
      cases hp : p a with
      | true => simp [search, hp]
      | false => simp [search, hp, hrest]

/-- Only the last node of a chain has no successor. -/
theorem find?_last [DecidableEq α] (h : Chain next o l) :
    l.find? (fun x => decide (next x = none)) = l.getLast? := by
  induction l generalizing o with
  | nil => rfl
  | cons a l ih =>
    cases l with
    | nil => simp [h.last a rfl]
    | cons b m =>
      have hab : next a = some b := List.isChain_cons_cons.mp h.links |>.1
      rw [List.find?_cons_of_neg (by simp [hab]), List.getLast?_cons_cons]
      exact ih h.tail

end Chain

/-! ## Doubly linked chains -/

namespace DChain

variable {next prev next' prev' : α → Option α} {o o' : Option α} {l : List α} {a b : α}

theorem empty (next prev : α → Option α) : DChain next prev none [] :=
  ⟨rfl, by simp, List.isChain_nil, by simp, List.nodup_nil⟩

theorem toChain (h : DChain next prev o l) : Chain next o l :=
  ⟨h.head, h.links.imp fun _ _ hxy => hxy.1, h.last, h.nodup⟩

theorem congr (h : DChain next prev o l) (hn : ∀ x ∈ l, next' x = next x)
    (hp : ∀ x ∈ l, prev' x = prev x) : DChain next' prev' o l where
  head := h.head
  first x hx := (hp x (List.mem_of_head? hx)).trans (h.first x hx)
  links := h.links.imp_of_mem_imp fun x y hx hy hxy =>
    ⟨(hn x hx).trans hxy.1, (hp y hy).trans hxy.2⟩
  last x hx := (hn x (List.mem_of_getLast? hx)).trans (h.last x hx)
  nodup := h.nodup

/-- A node with a predecessor is its predecessor's successor. -/
theorem of_prev (h : DChain next prev o l) (hb : b ∈ l) (hab : prev b = some a) :
    a ∈ l ∧ next a = some b := by
  obtain ⟨l₁, l₂, rfl⟩ := List.append_of_mem hb
  rcases List.eq_nil_or_concat l₁ with rfl | ⟨m, x, rfl⟩
  · have hnone := h.first b (by simp)
    rw [hab] at hnone
    cases hnone
  · have hxb : Linked next prev x b :=
      (List.isChain_append.mp h.links).2.2 x (by simp) b (by simp)
    have hxa : x = a := Option.some.inj (hxb.2.symm.trans hab)
    exact ⟨by simp [hxa], hxa ▸ hxb.1⟩

/-- A node with a successor is its successor's predecessor. -/
theorem of_next (h : DChain next prev o l) (hb : b ∈ l) (hba : next b = some a) :
    a ∈ l ∧ prev a = some b := by
  obtain ⟨l₁, l₂, rfl⟩ := List.append_of_mem hb
  have hrest := (List.isChain_append.mp h.links).2.1
  cases l₂ with
  | nil =>
    have hnone := h.last b (by simp)
    rw [hba] at hnone
    cases hnone
  | cons y m =>
    have hby : Linked next prev b y := (List.isChain_cons_cons.mp hrest).1
    have hya : y = a := Option.some.inj (hby.1.symm.trans hba)
    exact ⟨by simp [hya], hya ▸ hby.2⟩

theorem next_ne_self (h : DChain next prev o l) (hb : b ∈ l) : next b ≠ some b := by
  intro hbb
  obtain ⟨l₁, l₂, rfl⟩ := List.append_of_mem hb
  have hlinks := List.isChain_cons.mp (List.isChain_append.mp h.links).2.1
  cases l₂ with
  | nil =>
    rw [h.last b (by simp)] at hbb
    cases hbb
  | cons y m =>
    have hyb : y = b := Option.some.inj ((hlinks.1 y rfl).1.symm.trans hbb)
    have hnodup := (List.nodup_append.mp h.nodup).2.1
    exact (List.nodup_cons.mp hnodup).1 (by simp [hyb])

theorem prev_ne_self (h : DChain next prev o l) (hb : b ∈ l) : prev b ≠ some b :=
  fun hbb => h.next_ne_self hb (h.of_prev hb hbb).2

theorem prev_eq_none_iff (h : DChain next prev o l) (hb : b ∈ l) :
    prev b = none ↔ o = some b := by
  constructor
  · intro hnone
    obtain ⟨l₁, l₂, rfl⟩ := List.append_of_mem hb
    rcases List.eq_nil_or_concat l₁ with rfl | ⟨m, x, rfl⟩
    · exact h.head.symm
    · have hxb : Linked next prev x b :=
        (List.isChain_append.mp h.links).2.2 x (by simp) b (by simp)
      rw [hxb.2] at hnone
      cases hnone
  · intro ho
    exact h.first b (h.head.trans ho)

/-- A new node is linked in front. -/
theorem push [DecidableEq α] (h : DChain next prev o l) (ha : a ∉ l)
    (hna : next' a = o) (hpa : prev' a = none) (hn : ∀ x ∈ l, next' x = next x)
    (hp : ∀ x ∈ l, prev' x = if o = some x then some a else prev x) :
    DChain next' prev' (some a) (a :: l) := by
  refine ⟨rfl, by simpa using hpa, ?_, ?_, List.nodup_cons.mpr ⟨ha, h.nodup⟩⟩
  · refine List.isChain_cons.mpr ⟨?_, ?_⟩
    · intro y hy
      have ho : o = some y := h.head.symm.trans hy
      exact ⟨hna.trans ho, by rw [hp y (List.mem_of_head? hy), if_pos ho]⟩
    · refine h.links.imp_of_mem_imp fun x y hx hy hxy => ⟨(hn x hx).trans hxy.1, ?_⟩
      rw [hp y hy, if_neg, hxy.2]
      intro ho
      have hnone := (h.prev_eq_none_iff hy).mpr ho
      rw [hxy.2] at hnone
      cases hnone
  · intro x hx
    cases l with
    | nil =>
      have hxa : x = a := by simpa using hx.symm
      rw [hxa, hna]
      exact h.head.symm
    | cons y m =>
      rw [List.getLast?_cons_cons] at hx
      exact (hn x (List.mem_of_getLast? hx)).trans (h.last x hx)

/-- A node is taken out: its neighbours are linked to each other, and who pointed at it
as the first node points at the next. -/
theorem remove [DecidableEq α] {l₁ l₂ : List α} (h : DChain next prev o (l₁ ++ b :: l₂))
    (ho : o' = if o = some b then next b else o)
    (hn : ∀ x ∈ l₁ ++ l₂, next' x = if prev b = some x then next b else next x)
    (hp : ∀ x ∈ l₁ ++ l₂, prev' x = if next b = some x then prev b else prev x) :
    DChain next' prev' o' (l₁ ++ l₂) := by
  obtain ⟨hleft, hright, hbefore⟩ := List.isChain_append.mp h.links
  obtain ⟨hafter, hright⟩ := List.isChain_cons.mp hright
  have hnodup := List.nodup_middle.mp h.nodup
  obtain ⟨hb, hnodup⟩ := List.nodup_cons.mp hnodup
  have hbl : b ∈ l₁ ++ b :: l₂ := by simp
  -- an old link between two nodes that stay is untouched
  have hkeep : ∀ x y, x ∈ l₁ ++ l₂ → y ∈ l₁ ++ l₂ → Linked next prev x y →
      Linked next' prev' x y := by
    intro x y hx hy hxy
    constructor
    · rw [hn x hx, if_neg, hxy.1]
      intro e
      have hxb := (h.of_prev hbl e).2
      rw [hxy.1] at hxb
      exact hb (Option.some.inj hxb ▸ hy)
    · rw [hp y hy, if_neg, hxy.2]
      intro e
      have hby := (h.of_next hbl e).2
      rw [hxy.2] at hby
      exact hb (Option.some.inj hby ▸ hx)
  have hlast : ∀ x ∈ l₁.getLast?, Linked next prev x b := fun x hx => hbefore x hx b rfl
  refine ⟨?_, ?_, ?_, ?_, hnodup⟩
  · rw [ho]
    cases l₁ with
    | nil =>
      have hob : o = some b := h.head.symm
      rw [if_pos hob, List.nil_append]
      cases l₂ with
      | nil => exact (h.last b (by simp)).symm
      | cons y m => exact (hafter y rfl).1.symm
    | cons x m =>
      have hx : o = some x := h.head.symm
      rw [if_neg, hx]
      · rfl
      · intro e
        rw [hx] at e
        exact hb (by simp [Option.some.inj e])
  · intro x hx
    rw [hp x (List.mem_of_head? hx)]
    cases l₁ with
    | nil =>
      rw [if_pos (hafter x (by simpa using hx)).1]
      exact h.first b (by simp)
    | cons z m =>
      have hnone : prev x = none := h.first x (by simpa using hx)
      rw [if_neg, hnone]
      intro e
      have hbx := (h.of_next hbl e).2
      rw [hnone] at hbx
      cases hbx
  · refine List.isChain_append.mpr ⟨?_, ?_, ?_⟩
    · exact hleft.imp_of_mem_imp fun x y hx hy => hkeep x y (by simp [hx]) (by simp [hy])
    · exact hright.imp_of_mem_imp fun x y hx hy => hkeep x y (by simp [hx]) (by simp [hy])
    · intro x hx y hy
      have hxb := hlast x hx
      have hby := hafter y hy
      have hxl : x ∈ l₁ ++ l₂ := List.mem_append_left _ (List.mem_of_getLast? hx)
      have hyl : y ∈ l₁ ++ l₂ := List.mem_append_right _ (List.mem_of_head? hy)
      exact ⟨by rw [hn x hxl, if_pos hxb.2, hby.1], by rw [hp y hyl, if_pos hby.1, hxb.2]⟩
  · intro x hx
    rw [hn x (List.mem_of_getLast? hx)]
    cases l₂ with
    | nil =>
      rw [if_pos (hlast x (by simpa using hx)).2]
      exact h.last b (by simp)
    | cons y m =>
      have hnone : next x = none := by
        apply h.last
        rw [List.getLast?_append_cons] at hx ⊢
        rwa [List.getLast?_cons_cons]
      rw [if_neg, hnone]
      intro e
      have hxb := (h.of_prev hbl e).2
      rw [hnone] at hxb
      cases hxb

end DChain

/-! ## Rings -/

theorem cycle_at {c : Cycle α} {a : α} (h : a ∈ c) : ∃ l : List α, c = ↑(a :: l) := by
  induction c using Quotient.inductionOn' with
  | h m =>
    obtain ⟨l₁, l₂, rfl⟩ := List.append_of_mem (Cycle.mem_coe_iff.mp h)
    exact ⟨l₂ ++ l₁, Cycle.coe_eq_coe.mpr List.isRotated_append⟩

namespace Ring

variable {next prev next' prev' : α → Option α} {a b : α} {l : List α}

theorem single (hn : next a = some a) (hp : prev a = some a) :
    Ring next prev ↑[a] :=
  ⟨(Cycle.chain_singleton _ a).mpr ⟨hn, hp⟩, Cycle.nodup_coe_iff.mpr (List.nodup_singleton a)⟩

/-- The neighbours of the node a ring is entered at. -/
theorem around (h : Ring next prev ↑(a :: l)) :
    (a :: l).IsChain (Linked next prev) ∧
      ∀ x ∈ (a :: l).getLast?, Linked next prev x a := by
  have hlinks := (Cycle.chain_coe_cons _ a l).mp h.links
  rw [← List.cons_append] at hlinks
  obtain ⟨hl, _, hback⟩ := List.isChain_append.mp hlinks
  exact ⟨hl, fun x hx => hback x hx a rfl⟩

theorem of_around (hl : (a :: l).IsChain (Linked next prev))
    (hback : ∀ x ∈ (a :: l).getLast?, Linked next prev x a) (hnodup : (a :: l).Nodup) :
    Ring next prev ↑(a :: l) := by
  refine ⟨?_, Cycle.nodup_coe_iff.mpr hnodup⟩
  rw [Cycle.chain_coe_cons, ← List.cons_append]
  refine hl.append (List.isChain_singleton a) fun x hx y hy => ?_
  have hya : y = a := by simpa using hy.symm
  exact hya ▸ hback x hx

theorem congr {c : Cycle α} (h : Ring next prev c) (hn : next' = next) (hp : prev' = prev) :
    Ring next' prev' c := by
  rw [hn, hp]
  exact h

/-- The same ring over other names of the nodes. -/
theorem map {β : Type*} {next'' prev'' : β → Option β} {c : Cycle α} (h : Ring next prev c)
    {f : α → β} (hf : Function.Injective f) (hn : ∀ x y, next x = some y → next'' (f x) = some (f y))
    (hp : ∀ x y, prev x = some y → prev'' (f x) = some (f y)) : Ring next'' prev'' (c.map f) := by
  induction c using Quotient.inductionOn' with
  | h l =>
    refine ⟨(Cycle.chain_map f).mpr (h.links.imp fun a b hab => ?_), ?_⟩
    · exact ⟨hn a b hab.1, hp b a hab.2⟩
    · exact Cycle.nodup_coe_iff.mpr ((Cycle.nodup_coe_iff.mp h.nodup).map hf)

/-- A node of a ring has neighbours in the ring. -/
theorem neighbours {c : Cycle α} (h : Ring next prev c) (ha : a ∈ c) :
    ∃ x y, x ∈ c ∧ y ∈ c ∧ Linked next prev x a ∧ Linked next prev a y := by
  obtain ⟨l, rfl⟩ := cycle_at ha
  obtain ⟨hl, hback⟩ := h.around
  obtain ⟨x, hx⟩ : ∃ x, (a :: l).getLast? = some x := ⟨_, List.getLast?_cons⟩
  have hxm : x ∈ (↑(a :: l) : Cycle α) := Cycle.mem_coe_iff.mpr (List.mem_of_getLast? hx)
  cases l with
  | nil =>
    have hxa : x = a := by simpa using hx.symm
    exact ⟨x, a, hxm, ha, hback x hx, hxa ▸ hback x hx⟩
  | cons y m =>
    exact ⟨x, y, hxm, by simp, hback x hx, (List.isChain_cons_cons.mp hl).1⟩

/-- A node that is not alone is taken out of a ring. -/
theorem remove [DecidableEq α] (h : Ring next prev ↑(b :: a :: l))
    (hn : ∀ x ∈ a :: l, next' x = if prev b = some x then next b else next x)
    (hp : ∀ x ∈ a :: l, prev' x = if next b = some x then prev b else prev x) :
    Ring next' prev' ↑(a :: l) := by
  obtain ⟨hl, hback⟩ := h.around
  obtain ⟨hba, hl⟩ := List.isChain_cons_cons.mp hl
  obtain ⟨hb, hnodup⟩ := List.nodup_cons.mp (Cycle.nodup_coe_iff.mp h.nodup)
  obtain ⟨z, hz⟩ : ∃ z, (a :: l).getLast? = some z := ⟨_, List.getLast?_cons⟩
  have hzb : Linked next prev z b := hback z (by rwa [List.getLast?_cons_cons])
  refine of_around ?_ ?_ hnodup
  · refine hl.imp_of_mem_imp fun x y hx hy hxy => ⟨?_, ?_⟩
    · rw [hn x hx, if_neg, hxy.1]
      intro e
      have hxz : x = z := Option.some.inj (e.symm.trans hzb.2)
      have hyb : y = b := Option.some.inj (hxy.1.symm.trans (hxz ▸ hzb.1))
      exact hb (hyb ▸ hy)
    · rw [hp y hy, if_neg, hxy.2]
      intro e
      have hya : y = a := Option.some.inj (e.symm.trans hba.1)
      have hxb : x = b := Option.some.inj (hxy.2.symm.trans (hya ▸ hba.2))
      exact hb (hxb ▸ hx)
  · intro x hx
    have hxz : x = z := Option.some.inj ((Option.mem_def.mp hx).symm.trans hz)
    rw [hxz]
    exact ⟨by rw [hn z (List.mem_of_getLast? hz), if_pos hzb.2, hba.1],
      by rw [hp a (by simp), if_pos hba.1, hzb.2]⟩

/-- A new node is linked between the last node and the first. -/
theorem insert [DecidableEq α] (h : Ring next prev ↑(a :: l)) (hb : b ∉ a :: l)
    (hnb : next' b = some a) (hpb : prev' b = prev a)
    (hn : ∀ x ∈ a :: l, next' x = if prev a = some x then some b else next x)
    (hp : ∀ x ∈ a :: l, prev' x = if x = a then some b else prev x) :
    Ring next' prev' ↑(b :: a :: l) := by
  obtain ⟨hl, hback⟩ := h.around
  have hnodup := Cycle.nodup_coe_iff.mp h.nodup
  obtain ⟨z, hz⟩ : ∃ z, (a :: l).getLast? = some z := ⟨_, List.getLast?_cons⟩
  have hza : Linked next prev z a := hback z hz
  refine of_around (List.isChain_cons_cons.mpr ⟨⟨hnb, ?_⟩, ?_⟩) ?_
    (List.nodup_cons.mpr ⟨hb, hnodup⟩)
  · rw [hp a (by simp), if_pos rfl]
  · -- a link of the ring that does not come back to its first node
    refine List.IsChain.imp_of_mem_tail_imp (fun x y hx hy hxy => ?_) hl
    have hya : y ≠ a := fun e => (List.nodup_cons.mp hnodup).1 (e ▸ hy)
    have hyl : y ∈ a :: l := List.mem_cons_of_mem a hy
    constructor
    · rw [hn x hx, if_neg, hxy.1]
      intro e
      have hxz : x = z := Option.some.inj (e.symm.trans hza.2)
      exact hya (Option.some.inj (hxy.1.symm.trans (hxz ▸ hza.1)))
    · rw [hp y hyl, if_neg hya, hxy.2]
  · intro x hx
    rw [List.getLast?_cons_cons] at hx
    have hxz : x = z := Option.some.inj ((Option.mem_def.mp hx).symm.trans hz)
    rw [hxz]
    exact ⟨by rw [hn z (List.mem_of_getLast? hz), if_pos hza.2], hpb.trans hza.2⟩

end Ring

end Lib
end CherryOS
