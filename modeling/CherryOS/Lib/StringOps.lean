import CherryOS.Lib.Stack

/-!
# Repeated string instructions

`moves` is `rep movs`: elements of `size` bytes are read and written one after another, so a
later element may be read from where an earlier one was written.  `stores` is `rep stos`.
Where the elements are is given by functions, since offsets wrap before a segment is added.

Upward to a lower address a repeated move is one copy, whatever the two places share.
-/

namespace CherryOS
namespace Lib

def moves (size : Nat) (src dst : Nat → BitVec 32) (m : Bytes32) : Nat → Bytes32
  | 0 => m
  | n + 1 => copyIn (moves size src dst m n) (dst n)
      (fun k => moves size src dst m n (src n + BitVec.ofNat 32 k)) size

def stores (size : Nat) (dst : Nat → BitVec 32) (x : Nat → BitVec 8) (m : Bytes32) : Nat → Bytes32
  | 0 => m
  | n + 1 => copyIn (stores size dst x m n) (dst n) x size

variable {size n : Nat} {src dst : Nat → BitVec 32} {s d : BitVec 32} {m : Bytes32}

/-- The bytes from an address on. -/
def bytesAt (m : Bytes32) (a : BitVec 32) (k : Nat) : BitVec 8 := m (a + BitVec.ofNat 32 k)

theorem moves_eq_copyIn (hsrc : ∀ i < n, src i = s + BitVec.ofNat 32 (size * i))
    (hdst : ∀ i < n, dst i = d + BitVec.ofNat 32 (size * i))
    (hdown : (s - d).toNat + size * n ≤ 2 ^ 32) :
    moves size src dst m n = copyIn m d (bytesAt m s) (size * n) := by
  induction n with
  | zero => rfl
  | succ n ih =>
    rw [Nat.mul_succ] at hdown
    have hbefore := ih (fun i hi => hsrc i (by omega)) (fun i hi => hdst i (by omega)) (by omega)
    -- an element not read yet is above all that was written
    have hread : ∀ k < size, copyIn m d (bytesAt m s) (size * n) (src n + BitVec.ofNat 32 k) =
        bytesAt m s (size * n + k) := by
      intro k hk
      have hfrom : src n + BitVec.ofNat 32 k = s + BitVec.ofNat 32 (size * n + k) := by
        rw [hsrc n (Nat.lt_succ_self n), BitVec.ofNat_add, BitVec.add_assoc]
      have hdist : s + BitVec.ofNat 32 (size * n + k) - d =
          s - d + BitVec.ofNat 32 (size * n + k) := by ring
      rw [hfrom, copyIn_apply (by omega), if_neg]
      · rfl
      · rw [hdist, BitVec.toNat_add, BitVec.toNat_ofNat]
        omega
    rw [moves, hbefore, copyIn_congr hread, hdst n (Nat.lt_succ_self n), Nat.mul_succ]
    exact copyIn_copyIn

theorem stores_eq_copyIn {x y : Nat → BitVec 8}
    (hdst : ∀ i < n, dst i = d + BitVec.ofNat 32 (size * i))
    (hy : ∀ i < n, ∀ k < size, y (size * i + k) = x k) :
    stores size dst x m n = copyIn m d y (size * n) := by
  induction n with
  | zero => rfl
  | succ n ih =>
    have hbefore := ih (fun i hi => hdst i (by omega)) fun i hi => hy i (by omega)
    rw [stores, hbefore, hdst n (Nat.lt_succ_self n), Nat.mul_succ,
      copyIn_congr fun k hk => (hy n (Nat.lt_succ_self n) k hk).symm]
    exact copyIn_copyIn

theorem moves_away {p : BitVec 32} (hsize : size ≤ 2 ^ 32)
    (haway : ∀ i < n, size ≤ (p - dst i).toNat) : moves size src dst m n p = m p := by
  induction n with
  | zero => rfl
  | succ n ih =>
    have hlast := haway n (Nat.lt_succ_self n)
    rw [moves, copyIn_apply hsize, if_neg (by omega), ih fun i hi => haway i (by omega)]

/-! ## Real mode -/

/-- The address of an offset in a segment. -/
def linear (seg off : BitVec 16) : BitVec 32 := seg.setWidth 32 * 16 + off.setWidth 32

/-- An index register after `k` bytes, down if the direction flag is set. -/
def index (df : Bool) (x : BitVec 16) (k : Nat) : BitVec 16 :=
  if df then x - BitVec.ofNat 16 k else x + BitVec.ofNat 16 k

/-- `rep movs` from `ds:si` to `es:di`. -/
def repMovs (size : Nat) (df : Bool) (ds si es di cx : BitVec 16) (m : Bytes32) : Bytes32 :=
  moves size (fun i => linear ds (index df si (size * i)))
    (fun i => linear es (index df di (size * i))) m cx.toNat

section
variable {seg off ds si es di cx : BitVec 16} {df : Bool} {k : Nat} {p : BitVec 32}

theorem toNat_linear (seg off : BitVec 16) :
    (linear seg off).toNat = seg.toNat * 16 + off.toNat := by
  have hseg := seg.isLt
  have hoff := off.isLt
  rw [linear, BitVec.toNat_add, BitVec.toNat_mul, BitVec.toNat_setWidth, BitVec.toNat_setWidth]
  show (seg.toNat % 2 ^ 32 * 16 % 2 ^ 32 + off.toNat % 2 ^ 32) % 2 ^ 32 = _
  omega

/-- An offset that does not wrap. -/
theorem linear_index (h : off.toNat + k < 2 ^ 16) :
    linear seg (index false off k) = linear seg off + BitVec.ofNat 32 k := by
  have hseg := seg.isLt
  apply BitVec.eq_of_toNat_eq
  show (linear seg (off + BitVec.ofNat 16 k)).toNat = _
  rw [BitVec.toNat_add, toNat_linear, toNat_linear, BitVec.toNat_add, BitVec.toNat_ofNat,
    BitVec.toNat_ofNat]
  omega

/-- A repeated move upward, within both segments and not to a higher address. -/
theorem repMovs_eq_copyIn (hsrc : si.toNat + size * cx.toNat ≤ 2 ^ 16)
    (hdst : di.toNat + size * cx.toNat ≤ 2 ^ 16) (hsize : 0 < size)
    (hdown : (linear ds si - linear es di).toNat + size * cx.toNat ≤ 2 ^ 32) :
    repMovs size false ds si es di cx m =
      copyIn m (linear es di) (bytesAt m (linear ds si)) (size * cx.toNat) := by
  have hin : ∀ i < cx.toNat, size * i + size ≤ size * cx.toNat := fun i hi => by
    rw [← Nat.mul_succ]
    exact Nat.mul_le_mul_left size hi
  refine moves_eq_copyIn (fun i hi => ?_) (fun i hi => ?_) hdown
  · have hi' := hin i hi
    exact linear_index (by omega)
  · have hi' := hin i hi
    exact linear_index (by omega)

/-- Bytes are stored in the segment only. -/
theorem repMovs_away (hp : p.toNat < es.toNat * 16 ∨ es.toNat * 16 + 2 ^ 16 ≤ p.toNat) :
    repMovs 1 df ds si es di cx m p = m p := by
  apply moves_away (by decide)
  intro i _
  have hlin := toNat_linear es (index df di (1 * i))
  have hoff := (index df di (1 * i)).isLt
  have hlt := p.isLt
  rw [BitVec.toNat_sub]
  omega

end

end Lib
end CherryOS
