import Mathlib.Data.List.Infix

/-!
# Concatenated prefixes

`Prefixes ls l` says that `l` consists of a prefix of each list of `ls`, in their order.
-/

open List

namespace Gem5

variable {α : Type} {ls : List (List α)} {l l' m p : List α}

inductive Prefixes : List (List α) → List α → Prop
  | nil : Prefixes [] []
  | snoc {ls : List (List α)} {l m p : List α} : Prefixes ls l → p <+: m →
      Prefixes (ls ++ [m]) (l ++ p)

namespace Prefixes

theorem more (h : Prefixes ls l) (m : List α) : Prefixes (ls ++ [m]) l := by
  have hsnoc := h.snoc ( nil_prefix (l := m))
  rwa [append_nil] at hsnoc

theorem of_prefix (h : Prefixes ls l) (hp : l' <+: l) : Prefixes ls l' := by
  induction h generalizing l' with
  | nil =>
    rw [prefix_nil.mp hp]
    exact .nil
  | @snoc ls l m p hl hpm ih =>
    rcases Nat.le_total l'.length l.length with hle | hle
    · exact (ih (prefix_of_prefix_length_le hp (prefix_append l p) hle)).more m
    · -- all of the earlier lists' share is there
      obtain ⟨q, rfl⟩ := prefix_of_prefix_length_le (prefix_append l p) hp hle
      exact hl.snoc (((prefix_append_right_inj l).mp hp).trans hpm)

end Prefixes

end Gem5
