import Mathlib.Algebra.Order.BigOperators.Group.Finset

/-!
# Counting numbers by their digits

Numbers below `a * k` are a digit below `a` and a rest below `k`. Counted are the numbers with
a given digit, or with any digit, whose rest has a property.
-/

namespace Gem5.MixedRadix

open Finset Nat

variable {a k r : Nat} {P : Nat → Prop} [DecidablePred P]

theorem mul_add_inj {x y q s : Nat} (hx : x < a) (hy : y < a) (h : a * q + x = a * s + y) :
    q = s ∧ x = y := by
  have hxy : x = y := by
    have hmod := congrArg (· % a) h
    simpa [mul_add_mod, mod_eq_of_lt hx, mod_eq_of_lt hy] using hmod
  rw [hxy] at h
  exact ⟨Nat.eq_of_mul_eq_mul_left (zero_lt_of_lt hx) (Nat.add_right_cancel h), hxy⟩

theorem card_digit (hr : r < a) :
    #{x ∈ range (a * k) | x % a = r ∧ P (x / a)} = #{y ∈ range k | P y} := by
  have ha : 0 < a := zero_lt_of_lt hr
  have hdiv : ∀ y, (a * y + r) / a = y := fun y => by
    rw [mul_add_div ha, div_eq_of_lt hr, add_zero]
  refine card_nbij' (· / a) (fun y => a * y + r) ?_ ?_ ?_ ?_
  · intro x hx
    simp only [mem_coe, mem_filter, mem_range] at hx ⊢
    exact ⟨Nat.div_lt_of_lt_mul hx.1, hx.2.2⟩
  · intro y hy
    simp only [mem_coe, mem_filter, mem_range] at hy ⊢
    refine ⟨?_, ?_, ?_⟩
    · calc a * y + r < a * y + a := Nat.add_lt_add_left hr _
        _ = a * (y + 1) := (mul_succ a y).symm
        _ ≤ a * k := Nat.mul_le_mul_left a hy.1
    · rw [mul_add_mod, mod_eq_of_lt hr]
    · rw [hdiv]
      exact hy.2
  · intro x hx
    simp only [mem_coe, mem_filter, mem_range] at hx
    rw [← hx.2.1]
    exact div_add_mod x a
  · exact fun y _ => hdiv y

theorem card_rest (ha : 0 < a) :
    #{x ∈ range (a * k) | P (x / a)} = a * #{y ∈ range k | P y} := by
  have hmaps : ∀ x ∈ {x ∈ range (a * k) | P (x / a)}, x % a ∈ range a :=
    fun x _ => mem_range.mpr (mod_lt x ha)
  rw [card_eq_sum_card_fiberwise hmaps]
  have hfiber : ∀ r ∈ range a, #{x ∈ {x ∈ range (a * k) | P (x / a)} | x % a = r} =
      #{y ∈ range k | P y} := by
    intro r hr
    refine Eq.trans (congrArg card ?_) (card_digit (mem_range.mp hr))
    rw [filter_filter]
    ext x
    rw [mem_filter, mem_filter, and_comm (a := P (x / a))]
  rw [sum_congr rfl hfiber, sum_const, card_range, Nat.nsmul_eq_mul]

end Gem5.MixedRadix
