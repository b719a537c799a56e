import Mathlib.Data.List.Range
import Mathlib.Data.List.Nodup

/-!
# Consecutively numbered lists

`Numbered f a l` says that the elements of `l` carry the numbers `a`, `a + 1`,
and so on. Queues that hand their elements on in order keep this shape.
-/

namespace Gem5

open List

variable {α : Type} {f : α → Nat} {a : Nat} {l m : List α} {x : α}

def Numbered (f : α → Nat) (a : Nat) (l : List α) : Prop := l.map f = List.range' a l.length

namespace Numbered

@[simp] theorem nil : Numbered f a [] := rfl

theorem congr_map (h : l.map f = m.map f) : Numbered f a l ↔ Numbered f a m := by
  have hlen : l.length = m.length := by simpa using congrArg List.length h
  unfold Numbered
  rw [h, hlen]

theorem append_iff : Numbered f a (l ++ m) ↔ Numbered f a l ∧ Numbered f (a + l.length) m := by
  unfold Numbered
  rw [map_append, length_append, ← List.range'_append_1]
  constructor
  · intro h
    exact append_inj h (by simp)
  · rintro ⟨hl, hm⟩
    rw [hl, hm]

theorem cons_iff : Numbered f a (x :: l) ↔ f x = a ∧ Numbered f (a + 1) l := by
  unfold Numbered
  simp [List.range'_succ]

theorem singleton_iff : Numbered f a [x] ↔ f x = a := by simp [cons_iff]

theorem drop (h : Numbered f a l) (n : Nat) (hn : n ≤ l.length) :
    Numbered f (a + n) (l.drop n) := by
  rw [← take_append_drop n l, append_iff, length_take, Nat.min_eq_left hn] at h
  exact h.2

theorem take (h : Numbered f a l) (n : Nat) : Numbered f a (l.take n) := by
  rw [← take_append_drop n l, append_iff] at h
  exact h.1

theorem mem_bounds (h : Numbered f a l) (hx : x ∈ l) : a ≤ f x ∧ f x < a + l.length := by
  have hm : f x ∈ l.map f := mem_map_of_mem hx
  rw [h, mem_range'_1] at hm
  exact hm

theorem nodup_map (h : Numbered f a l) : (l.map f).Nodup := by
  rw [h]
  exact nodup_range'

theorem getElem? (h : Numbered f a l) {k : Nat} (hx : l[k]? = some x) : f x = a + k := by
  obtain ⟨hk, hxk⟩ := List.getElem?_eq_some_iff.mp hx
  have hm : (l.map f)[k]? = (List.range' a l.length)[k]? := congrArg (fun r => r[k]?) h
  rw [List.getElem?_map, hx, List.getElem?_range' hk] at hm
  simpa using hm

theorem of_getElem (h : ∀ k (hk : k < l.length), f l[k] = a + k) : Numbered f a l := by
  apply ext_getElem (by simp)
  intro k h₁ h₂
  simpa using h k (by simpa using h₁)

end Numbered

end Gem5
