import Mathlib.Data.List.Basic

/-!
# Computations that may fail for an excuse

`Ends excuse P r` says that `r` has a result with `P`, or has failed with an error that is
excused.  A computation is followed through its binds: `Ends.bind` is the only rule that a
chain of them needs, and `Ends.ite` follows a branch.
-/

namespace CherryOS
namespace Lib

variable {ε α β : Type} {excuse : ε → Prop} {P : α → Prop} {Q : β → Prop} {r : Except ε α}

def Ends (excuse : ε → Prop) (P : α → Prop) : Except ε α → Prop
  | .ok a => P a
  | .error e => excuse e

namespace Ends

theorem bind {f : α → Except ε β} (h : Ends excuse P r) (hf : ∀ a, P a → Ends excuse Q (f a)) :
    Ends excuse Q (r >>= f) := by
  cases r with
  | error e => exact h
  | ok a => exact hf a h

theorem mono {P' : α → Prop} (h : Ends excuse P r) (hP : ∀ a, P a → P' a) :
    Ends excuse P' r := by
  cases r with
  | error e => exact h
  | ok a => exact hP a h

theorem excused {excuse' : ε → Prop} (h : Ends excuse P r) (he : ∀ e, excuse e → excuse' e) :
    Ends excuse' P r := by
  cases r with
  | error e => exact he e h
  | ok a => exact h

theorem self (h : Ends excuse P r) : Ends excuse (fun a => r = .ok a ∧ P a) r := by
  cases r with
  | error e => exact h
  | ok a => exact ⟨rfl, h⟩

theorem ite {c : Prop} [Decidable c] {r r' : Except ε α} (h : Ends excuse P r)
    (h' : Ends excuse P r') : Ends excuse P (if c then r else r') := by
  split
  · exact h
  · exact h'

end Ends

end Lib
end CherryOS
