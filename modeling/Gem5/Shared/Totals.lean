import Mathlib.Algebra.BigOperators.Intervals
import Mathlib.Algebra.Order.BigOperators.Group.Finset

/-!
# Totals over numbered parts

The total of a quantity over the parts `0, …, n - 1` when one part changes.
-/

open Finset

namespace Gem5

variable {β : Type} {n i : Nat}

def total (n : Nat) (f : Nat → Nat) : Nat := ∑ i ∈ Finset.range n, f i

theorem total_update {s : Nat → β} {m : β → Nat} (hi : i < n) (b : β) :
    total n (fun j => m (Function.update s i b j)) + m (s i) =
      total n (fun j => m (s j)) + m b := by
  have hmem : i ∈ Finset.range n := mem_range.mpr hi
  have hrest : ∑ j ∈ (Finset.range n).erase i, m (Function.update s i b j) =
      ∑ j ∈ (Finset.range n).erase i, m (s j) := by
    apply sum_congr rfl
    intro j hj
    rw [Function.update_of_ne (ne_of_mem_erase hj)]
  unfold total
  rw [← add_sum_erase _ _ hmem, ← add_sum_erase _ (fun j => m (s j)) hmem,
    Function.update_self]
  omega

theorem le_total {f : Nat → Nat} (hi : i < n) : f i ≤ total n f :=
  single_le_sum (fun _ _ => Nat.zero_le _) (mem_range.mpr hi)

theorem total_zero : total n (fun _ => 0) = 0 := by
  simp [total]

end Gem5
