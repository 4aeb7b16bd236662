import Mathlib.Data.List.Induction

/-!
# Text on a roll

A roll has any number of rows of `width` cells, and a pen that stands at `x` in one of them or
after its last cell.  What is printed goes on in the next row when a row is full.  The rows that
a line takes are `wrap` of it, so a text is on the roll as the rows of its lines, one after the
other.
-/

namespace CherryOS
namespace Lib

structure Roll (α : Type*) where
  width : Nat
  rows : Nat → Nat → α
  row : Nat
  x : Nat

namespace Roll

variable {α : Type*}

def ret (p : Roll α) : Roll α := { p with x := 0 }

def feed (p : Roll α) : Roll α := { p with row := p.row + 1 }

def left (p : Roll α) : Roll α := { p with x := p.x - 1 }

def put (v : α) (p : Roll α) : Roll α :=
  { p with rows := fun r k => if r = p.row ∧ k = p.x then v else p.rows r k }

/-- The pen leaves a row that is full. -/
def next (p : Roll α) : Roll α := if p.width ≤ p.x then p.ret.feed else p

def print (v : α) (p : Roll α) : Roll α := { p.next.put v with x := p.next.x + 1 }

/-- To the next multiple of `n`, which may be in the next row. -/
def tab (n : Nat) (p : Roll α) : Roll α :=
  let x := p.x + (n - p.x % n)
  if p.width < x then feed { p with x := x - p.width } else { p with x := x }

def delete (blank : α) (p : Roll α) : Roll α := if p.x = 0 then p else p.left.put blank

def printAll (vs : List α) (p : Roll α) : Roll α := vs.foldl (fun p v => p.print v) p

/-- A line, and the pen at the start of the next row. -/
def line (vs : List α) (p : Roll α) : Roll α := (p.printAll vs).ret.feed

def lines (ls : List (List α)) (p : Roll α) : Roll α := ls.foldl (fun p vs => p.line vs) p

theorem printAll_append (vs ws : List α) (p : Roll α) :
    p.printAll (vs ++ ws) = (p.printAll vs).printAll ws := List.foldl_append

/-! ## Rows of text -/

/-- How many rows `n` cells take; no cells take one row. -/
def height (width n : Nat) : Nat := (n - 1) / width + 1

def wrap (width : Nat) (vs : List α) : List (List α) :=
  (List.range (height width vs.length)).map fun i => (vs.drop (width * i)).take width

/-- The cell in a row and a column. -/
def cell (rows : List (List α)) (r k : Nat) : Option α := rows[r]?.bind (·[k]?)

theorem wrap_length (width : Nat) (vs : List α) :
    (wrap width vs).length = height width vs.length := by
  rw [wrap, List.length_map, List.length_range]

theorem cell_append (rows rest : List (List α)) (r k : Nat) :
    cell (rows ++ rest) r k =
      if r < rows.length then cell rows r k else cell rest (r - rows.length) k := by
  rw [cell, List.getElem?_append]
  split
  · rfl
  · rfl

/-- The cells of a line lie one after the other in its rows. -/
theorem cell_wrap {width k : Nat} (hk : k < width) (vs : List α) (r : Nat) :
    cell (wrap width vs) r k = vs[width * r + k]? := by
  rw [cell, wrap, List.getElem?_map]
  by_cases hr : r < height width vs.length
  · rw [List.getElem?_range hr, Option.map_some, Option.bind_some, List.getElem?_take_of_lt hk,
      List.getElem?_drop]
  · have hbeyond : vs.length ≤ width * r + k := by
      have hdiv : (vs.length - 1) / width < r := Nat.lt_of_succ_le (Nat.not_lt.mp hr)
      have hlt := (Nat.div_lt_iff_lt_mul (by omega)).mp hdiv
      rw [Nat.mul_comm] at hlt
      omega
    have hnone : (List.range (height width vs.length))[r]? = none := by
      rw [List.getElem?_eq_none_iff, List.length_range]
      exact Nat.not_lt.mp hr
    rw [hnone, List.getElem?_eq_none_iff.mpr hbeyond]
    rfl

/-! ## Printing -/

/-- `q` is `p`, with its pen at the start of a row, after some cells have been printed. -/
structure Printed (p : Roll α) (vs : List α) (q : Roll α) : Prop where
  width : q.width = p.width
  pen : q.width * q.row + q.x = q.width * p.row + vs.length
  x_le : q.x ≤ q.width
  x_pos : 0 < q.x ↔ vs ≠ []
  above : ∀ r k, r < p.row → q.rows r k = p.rows r k
  below : ∀ r k, k < p.width →
    q.rows (p.row + r) k = (cell (wrap p.width vs) r k).getD (p.rows (p.row + r) k)

theorem place_inj {w a b k l : Nat} (hk : k < w) (hl : l < w) (h : w * a + k = w * b + l) :
    a = b ∧ k = l := by
  have hb := (Nat.div_mod_unique (Nat.zero_lt_of_lt hl)).mpr ⟨Nat.add_comm l (w * b), hl⟩
  have ha := (Nat.div_mod_unique (Nat.zero_lt_of_lt hk)).mpr ⟨Nat.add_comm k (w * a), hk⟩
  rw [h] at ha
  exact ⟨ha.1.symm.trans hb.1, ha.2.symm.trans hb.2⟩

section
variable {p q : Roll α} {vs : List α}

theorem printed_nil (hx : p.x = 0) : Printed p [] p where
  width := rfl
  pen := by rw [hx]; rfl
  x_le := by rw [hx]; exact Nat.zero_le _
  x_pos := by rw [hx]; simp
  above _ _ _ := rfl
  below r k hk := by
    rw [cell_wrap hk]
    rfl

/-- Where the next cell goes. -/
theorem next_spec (hx : q.x ≤ q.width) (hw : 0 < q.width) :
    q.next.width = q.width ∧ q.next.rows = q.rows ∧ q.next.x < q.width ∧
      q.width * q.next.row + q.next.x = q.width * q.row + q.x := by
  rw [next]
  split
  · rename_i hfull
    refine ⟨rfl, rfl, hw, ?_⟩
    show q.width * (q.row + 1) + 0 = _
    rw [Nat.mul_succ, Nat.add_zero, Nat.le_antisymm hx hfull]
  · rename_i hroom
    exact ⟨rfl, rfl, Nat.not_le.mp hroom, rfl⟩

theorem Printed.print (h : Printed p vs q) (hw : 0 < p.width) (v : α) :
    Printed p (vs ++ [v]) (q.print v) := by
  have hqw : 0 < q.width := by rw [h.width]; exact hw
  obtain ⟨hwidth, hrows, hx, hpen⟩ := next_spec h.x_le hqw
  rw [h.pen, h.width] at hpen
  rw [h.width] at hx hwidth
  have hprint : ∀ r k, (q.print v).rows r k =
      if r = q.next.row ∧ k = q.next.x then v else q.rows r k := by
    intro r k
    rw [← hrows]
    rfl
  have hrow : p.row ≤ q.next.row := by
    by_contra hlt
    have hmul := Nat.mul_le_mul_left p.width (Nat.succ_le_of_lt (Nat.not_le.mp hlt))
    rw [Nat.mul_succ] at hmul
    omega
  refine ⟨hwidth, ?_, ?_, iff_of_true (Nat.succ_pos _) (by simp), fun r k hr => ?_,
    fun r k hk => ?_⟩
  · show q.next.width * q.next.row + (q.next.x + 1) = q.next.width * p.row + (vs ++ [v]).length
    rw [hwidth, List.length_append, List.length_singleton]
    omega
  · show q.next.x + 1 ≤ q.next.width
    rw [hwidth]
    exact hx
  · rw [hprint, if_neg fun hc => by omega]
    exact h.above r k hr
  · have hmul : p.width * (p.row + r) = p.width * p.row + p.width * r := Nat.mul_add _ _ _
    have hplace : p.row + r = q.next.row ∧ k = q.next.x ↔ p.width * r + k = vs.length := by
      constructor
      · intro ⟨hrow, hcol⟩
        rw [← hrow, ← hcol] at hpen
        omega
      · intro hat
        exact place_inj hk hx (by omega)
    rw [hprint, h.below r k hk, cell_wrap hk, cell_wrap hk, List.getElem?_append]
    by_cases hat : p.width * r + k = vs.length
    · rw [if_pos (hplace.mpr hat), if_neg (by omega), hat, Nat.sub_self]
      rfl
    · rw [if_neg fun hc => hat (hplace.mp hc)]
      split
      · rfl
      · have hnone : ∀ l : List α, l.length ≤ p.width * r + k → l[p.width * r + k]? = none :=
          fun l hl => List.getElem?_eq_none_iff.mpr hl
        have hone : [v][p.width * r + k - vs.length]? = none := by
          rw [List.getElem?_eq_none_iff, List.length_singleton]
          omega
        rw [hone, hnone vs (by omega)]

theorem printed (hx : p.x = 0) (hw : 0 < p.width) (vs : List α) :
    Printed p vs (p.printAll vs) := by
  induction vs using List.reverseRecOn with
  | nil => exact printed_nil hx
  | append_singleton vs v ih =>
    rw [printAll_append]
    exact ih.print hw v

/-- The row in which a line ends. -/
theorem Printed.row (h : Printed p vs q) (hw : 0 < p.width) :
    q.row + 1 = p.row + height p.width vs.length := by
  have hpen := h.pen
  have hle := h.x_le
  rw [h.width] at hpen hle
  by_cases hnil : vs = []
  · have hx : q.x = 0 := Nat.eq_zero_of_not_pos fun hc => h.x_pos.mp hc hnil
    rw [hnil, hx] at hpen
    rw [Nat.eq_of_mul_eq_mul_left hw hpen, hnil, height, List.length_nil, Nat.zero_sub,
      Nat.zero_div]
  · have hpos := h.x_pos.mpr hnil
    have hlen := List.length_pos_iff.mpr hnil
    have hrow : p.row ≤ q.row := by
      by_contra hlt
      have hmul := Nat.mul_le_mul_left p.width (Nat.succ_le_of_lt (Nat.not_le.mp hlt))
      rw [Nat.mul_succ] at hmul
      omega
    have hsub : p.width * (q.row - p.row) = p.width * q.row - p.width * p.row := Nat.mul_sub _ _ _
    have hmono := Nat.mul_le_mul_left p.width hrow
    have hdiv : (vs.length - 1) / p.width = q.row - p.row :=
      ((Nat.div_mod_unique hw).mpr ⟨by omega, by omega⟩ :
        _ ∧ (vs.length - 1) % p.width = q.x - 1).1
    rw [height, hdiv]
    omega

end

/-! ## Lines -/

/-- `q` is `p`, with its pen at the start of a row, after the lines that take some rows. -/
structure Written (p : Roll α) (rows : List (List α)) (q : Roll α) : Prop where
  width : q.width = p.width
  x : q.x = 0
  row : q.row = p.row + rows.length
  above : ∀ r k, r < p.row → q.rows r k = p.rows r k
  below : ∀ r k, k < p.width →
    q.rows (p.row + r) k = (cell rows r k).getD (p.rows (p.row + r) k)

section
variable {p q : Roll α} {rows : List (List α)}

theorem written_nil (hx : p.x = 0) : Written p [] p where
  width := rfl
  x := hx
  row := rfl
  above _ _ _ := rfl
  below _ _ _ := rfl

theorem Written.line (h : Written p rows q) (hw : 0 < p.width) (vs : List α) :
    Written p (rows ++ wrap p.width vs) (q.line vs) := by
  have hqw : 0 < q.width := by rw [h.width]; exact hw
  have hprinted := printed h.x hqw vs
  have hrow := hprinted.row hqw
  rw [h.width] at hrow
  refine ⟨hprinted.width.trans h.width, rfl, ?_, fun r k hr => ?_, fun r k hk => ?_⟩
  · show (q.printAll vs).row + 1 = _
    rw [hrow, h.row, List.length_append, wrap_length, Nat.add_assoc]
  · have hlt : r < q.row := by
      rw [h.row]
      omega
    exact (hprinted.above r k hlt).trans (h.above r k hr)
  · rw [cell_append]
    split
    · rename_i hr
      have hlt : p.row + r < q.row := by
        rw [h.row]
        omega
      exact (hprinted.above _ k hlt).trans (h.below r k hk)
    · rename_i hr
      have hold := h.below r k hk
      have hnone : cell rows r k = none := by
        rw [cell, List.getElem?_eq_none_iff.mpr (Nat.not_lt.mp hr), Option.bind_none]
      rw [hnone, Option.getD_none] at hold
      have hnew := hprinted.below (r - rows.length) k (by rw [h.width]; exact hk)
      have hplace : q.row + (r - rows.length) = p.row + r := by
        rw [h.row]
        omega
      rw [hplace, h.width, hold] at hnew
      exact hnew

theorem written (hx : p.x = 0) (hw : 0 < p.width) (ls : List (List α)) :
    Written p (ls.flatMap (wrap p.width)) (p.lines ls) := by
  induction ls using List.reverseRecOn with
  | nil => exact written_nil hx
  | append_singleton ls vs ih =>
    rw [lines, List.foldl_append, List.flatMap_append, List.flatMap_singleton]
    exact ih.line hw vs

/-- What stands before the pen in its row. -/
def start (p : Roll α) : List α := (List.range p.x).map (p.rows p.row)

/-- Printing what is there already only moves the pen. -/
theorem printAll_start (hx : p.x ≤ p.width) : p.ret.printAll p.start = p := by
  have hmove : ∀ n ≤ p.x,
      p.ret.printAll ((List.range n).map (p.rows p.row)) = { p with x := n } := by
    intro n hn
    induction n with
    | zero => rfl
    | succ n ih =>
      have hnext : next { p with x := n } = { p with x := n } :=
        if_neg (show ¬ p.width ≤ n by omega)
      have hput : put (p.rows p.row n) { p with x := n } = { p with x := n } := by
        have hrows : (fun r k => if r = p.row ∧ k = n then p.rows p.row n else p.rows r k) =
            p.rows := by
          funext r k
          split
          · rename_i hat
            rw [hat.1, hat.2]
          · rfl
        show { p with rows := fun r k => if r = p.row ∧ k = n then p.rows p.row n else p.rows r k,
                      x := n } = { p with x := n }
        rw [hrows]
      rw [List.range_succ, List.map_append, printAll_append, ih (by omega)]
      show print (p.rows p.row n) { p with x := n } = _
      rw [print, hnext, hput]
  exact hmove p.x (Nat.le_refl _)

/-- The rows that lines take from the pen on: the first line goes on in the row of the pen. -/
def rowsOf (p : Roll α) : List (List α) → List (List α)
  | [] => []
  | l :: ls => ((p.start ++ l) :: ls).flatMap (wrap p.width)

theorem written_lines (hx : p.x ≤ p.width) (hw : 0 < p.width) (l : List α) (ls : List (List α)) :
    Written p.ret (p.rowsOf (l :: ls)) (p.lines (l :: ls)) := by
  have hlines : p.lines (l :: ls) = p.ret.lines ((p.start ++ l) :: ls) := by
    show lines ls (p.line l) = lines ls (p.ret.line (p.start ++ l))
    rw [line, line, printAll_append, printAll_start hx]
  rw [hlines]
  exact written (p := p.ret) rfl hw _

end

end Roll
end Lib
end CherryOS
