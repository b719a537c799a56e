import Mathlib.Data.List.Basic

/-!
# Linked lists

`Seg next p l q`: the pointers `next` lead from `p` through the cells `l` to `q`. `walk`
follows the pointers while a test holds and keeps the cell before the current one.
-/

open List

namespace Gem5.LinkedList

variable {α : Type}

def Seg (next : α → Option α) : Option α → List α → Option α → Prop
  | p, [], q => p = q
  | p, a :: l, q => p = some a ∧ Seg next (next a) l q

/-- `none` when the pointers do not end within `fuel` steps. -/
def walk (next : α → Option α) (go : α → Bool) : Nat → α → Option α → Option (α × Option α)
  | 0, _, _ => none
  | _ + 1, prev, none => some (prev, none)
  | fuel + 1, prev, some curr =>
    if go curr then walk next go fuel curr (next curr) else some (prev, some curr)

variable {next next' : α → Option α} {p q r : Option α} {l m : List α} {a : α}

namespace Seg

theorem append_iff : Seg next p (l ++ m) q ↔ ∃ r, Seg next p l r ∧ Seg next r m q := by
  induction l generalizing p with
  | nil =>
    constructor
    · intro h
      exact ⟨p, rfl, h⟩
    · rintro ⟨r, rfl, h⟩
      exact h
  | cons a l ih =>
    constructor
    · rintro ⟨hp, h⟩
      obtain ⟨r, hl, hm⟩ := ih.mp h
      exact ⟨r, ⟨hp, hl⟩, hm⟩
    · rintro ⟨r, ⟨hp, hl⟩, hm⟩
      exact ⟨hp, ih.mpr ⟨r, hl, hm⟩⟩

theorem congr (h : Seg next p l q) (hsame : ∀ a ∈ l, next' a = next a) : Seg next' p l q := by
  induction l generalizing p with
  | nil => exact h
  | cons a l ih =>
    refine ⟨h.1, ?_⟩
    rw [hsame a mem_cons_self]
    exact ih h.2 fun b hb => hsame b (mem_cons_of_mem a hb)

theorem set_last (h : Seg next p (l ++ [a]) q) (hl : ∀ b ∈ l, next' b = next b)
    (ha : next' a = r) : Seg next' p (l ++ [a]) r := by
  obtain ⟨m, hfront, hlast⟩ := append_iff.mp h
  exact append_iff.mpr ⟨m, hfront.congr hl, hlast.1, ha⟩

theorem unique (hl : Seg next p l none) (hm : Seg next p m none) : l = m := by
  induction l generalizing p m with
  | nil =>
    cases m with
    | nil => rfl
    | cons b m => exact nomatch hl.symm.trans hm.1
  | cons a l ih =>
    cases m with
    | nil => exact nomatch hm.symm.trans hl.1
    | cons b m =>
      obtain rfl : a = b := Option.mem_unique hl.1 hm.1
      rw [ih hl.2 hm.2]

theorem head_eq (h : Seg next p l none) : p = l.head? := by
  cases l with
  | nil => exact h
  | cons a l => exact h.1

end Seg

theorem walk_spec (go : α → Bool) {fuel : Nat} (prev : α) (h : Seg next p l none)
    (hfuel : l.length < fuel) : ∃ front post, l = front ++ post ∧ (∀ a ∈ front, go a = true) ∧
      (∀ a ∈ post.head?, go a = false) ∧ walk next go fuel prev p =
        some ((prev :: front).getLast (List.cons_ne_nil prev front), post.head?) := by
  induction l generalizing p prev fuel with
  | nil =>
    obtain ⟨fuel, rfl⟩ := Nat.exists_eq_succ_of_ne_zero (Nat.ne_of_gt hfuel)
    obtain rfl : p = none := h
    exact ⟨[], [], rfl, forall_mem_nil _, (fun a ha => by cases ha), rfl⟩
  | cons a l ih =>
    obtain ⟨fuel, rfl⟩ := Nat.exists_eq_succ_of_ne_zero (Nat.ne_of_gt (Nat.zero_lt_of_lt hfuel))
    obtain ⟨rfl, hl⟩ := h
    rw [walk]
    by_cases hgo : go a = true
    · rw [if_pos hgo]
      obtain ⟨front, post, rfl, hfront, hpost, hwalk⟩ := ih a hl
        (Nat.lt_of_succ_lt_succ hfuel)
      refine ⟨a :: front, post, rfl, ?_, hpost, ?_⟩
      · intro b hb
        rcases mem_cons.mp hb with rfl | hb
        · exact hgo
        · exact hfront b hb
      · rw [hwalk, getLast_cons (cons_ne_nil a front)]
    · rw [if_neg hgo]
      refine ⟨[], a :: l, rfl, forall_mem_nil _, ?_, rfl⟩
      intro b hb
      obtain rfl := Option.some.inj hb
      exact Bool.eq_false_iff.mpr hgo

end Gem5.LinkedList
