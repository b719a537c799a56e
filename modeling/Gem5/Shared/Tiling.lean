import Mathlib.Algebra.BigOperators.Group.List.Basic
import Mathlib.Algebra.Order.Ring.Nat

/-!
# Intervals cut along lines

`Tiles line a b l` says that the pieces of `l`, each a start with a length, follow each other
from `a` to `b`, and that none of them crosses a multiple of `line`. `Consecutive a b l` only
says that they follow each other.
-/

namespace Gem5

def InLine (line start length : Nat) : Prop := start / line = (start + length - 1) / line

inductive Consecutive : Nat → Nat → List (Nat × Nat) → Prop
  | nil (a : Nat) : Consecutive a a []
  | cons {a b n : Nat} {rest : List (Nat × Nat)} : Consecutive (a + n) b rest →
      Consecutive a b ((a, n) :: rest)

namespace Consecutive

variable {a b n : Nat} {l : List (Nat × Nat)}

theorem snoc (h : Consecutive a b l) : Consecutive a (b + n) (l ++ [(b, n)]) := by
  induction h with
  | nil a => exact .cons (.nil _)
  | cons _ ih => exact .cons ih

theorem last_eq {c : Nat} (h : Consecutive a b (l ++ [(c, n)])) : b = c + n := by
  generalize hl : l ++ [(c, n)] = l' at h
  induction h generalizing l with
  | nil a => exact absurd hl (by simp)
  | cons hrest ih =>
    cases l with
    | nil =>
      obtain ⟨⟨rfl, rfl⟩, rfl⟩ := hl
      cases hrest
      rfl
    | cons x l => exact ih (List.cons.inj hl).2

theorem length_le (h : Consecutive a b l) (hpos : ∀ x ∈ l, 0 < x.2) : a + l.length ≤ b := by
  induction h with
  | nil a => exact le_rfl
  | cons _ ih =>
    have hfirst := hpos _ List.mem_cons_self
    have hrest := ih fun x hx => hpos x (List.mem_cons_of_mem _ hx)
    rw [List.length_cons]
    omega

end Consecutive

end Gem5
