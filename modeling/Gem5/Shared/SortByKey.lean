import Mathlib.Data.List.Sort

/-!
# Sorting by an integer key

When no two elements share a key, sorting an arrangement of a list gives the list
back exactly if the list was in key order.
-/

namespace Gem5.SortByKey

open List

variable {α : Type} {l vec : List α}

theorem pairwise_sort (key : α → Int) (vec : List α) :
    (vec.insertionSort fun a b => key a ≤ key b).Pairwise fun a b => key a ≤ key b := by
  exact pairwise_insertionSort _ vec

theorem sort_eq_iff (key : α → Int) (hp : l.Perm vec)
    (hinj : ∀ a ∈ l, ∀ b ∈ l, key a = key b → a = b) :
    (vec.insertionSort fun a b => key a ≤ key b) = l ↔ l.Pairwise fun a b => key a ≤ key b := by
  have hsorted := pairwise_sort key vec
  have hperm := (perm_insertionSort (fun a b => key a ≤ key b) vec).trans hp.symm
  constructor
  · intro h
    rwa [h] at hsorted
  · intro hl
    apply List.Perm.eq_of_pairwise _ hsorted hl hperm
    intro a b ha hb hab hba
    exact hinj a (hperm.subset ha) b hb (Int.le_antisymm hab hba)

theorem filterMap_getElem? {β : Type} {f : α → Option β} :
    ∀ {l : List α}, (∀ a ∈ l, (f a).isSome = true) → ∀ k : Nat,
      (l.filterMap f)[k]? = l[k]?.bind f := by
  intro l
  induction l with
  | nil => simp
  | cons a l ih =>
    intro h k
    obtain ⟨b, hb⟩ := Option.isSome_iff_exists.mp (h a mem_cons_self)
    rw [filterMap_cons_some hb]
    cases k with
    | zero => simp [hb]
    | succ k => simpa using ih (fun x hx => h x (mem_cons_of_mem a hx)) k

theorem filterMap_perm {β : Type} {f : α → Option β} [DecidableEq α] {m : List α}
    (hl : l.Nodup) (hm : m.Nodup) (hsub : l ⊆ m) (hsome : ∀ a ∈ m, (f a).isSome = true → a ∈ l) :
    (l.filterMap f).Perm (m.filterMap f) := by
  have hfilter : m.filterMap f = (m.filter (· ∈ l)).filterMap f := by
    rw [filterMap_filter]
    apply filterMap_congr
    intro a ha
    by_cases hal : a ∈ l
    · simp [hal]
    · cases hfa : f a with
      | none => simp
      | some b => exact absurd (hsome a ha (by simp [hfa])) hal
  rw [hfilter]
  apply List.Perm.filterMap
  apply (perm_ext_iff_of_nodup hl (hm.filter _)).mpr
  intro a
  simp only [mem_filter, decide_eq_true_eq]
  exact ⟨fun ha => ⟨hsub ha, ha⟩, fun ha => ha.2⟩

theorem eq_of_map_eq {β : Type} {g : α → β} (hp : l.Perm vec)
    (hinj : ∀ a ∈ l, ∀ b ∈ l, g a = g b → a = b) (h : vec.map g = l.map g) : vec = l := by
  apply ext_getElem hp.length_eq.symm
  intro k hk₁ hk₂
  apply hinj _ (hp.symm.subset (getElem_mem hk₁)) _ (getElem_mem hk₂)
  have hk := congrArg (fun m => m[k]?) h
  simpa [hk₁, hk₂] using hk

end Gem5.SortByKey
