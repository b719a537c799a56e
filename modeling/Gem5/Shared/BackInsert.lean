import Mathlib.Data.List.Basic

/-!
# Insertion from the back of a list

A new element goes behind the last one at which the search from the back stops. The
result is nothing if the search reaches the front.
-/

open List

namespace Gem5.BackInsert

variable {α : Type} {stop : α → Bool} {x : α} {l l' : List α} {R : α → α → Prop}

def loop (stop : α → Bool) (x : α) : List α → List α → Option (List α)
  | [], _ => none
  | it :: front, behind =>
    if stop it then some (front.reverse ++ it :: x :: behind) else loop stop x front (it :: behind)

def insertBehind (stop : α → Bool) (x : α) (l : List α) : Option (List α) :=
  loop stop x l.reverse []

structure Placed (stop : α → Bool) (x : α) (l l' pre post : List α) : Prop where
  before : l = pre ++ post
  after : l' = pre ++ x :: post
  passed : ∀ a ∈ post, stop a = false

theorem loop_spec (front : List α) (x : α) {behind : List α} (h : ∀ a ∈ behind, stop a = false) :
    (loop stop x front behind = none ∧ ∀ a ∈ front, stop a = false) ∨
      ∃ l' pre it post, loop stop x front behind = some l' ∧ stop it = true ∧
        Placed stop x (front.reverse ++ behind) l' (pre ++ [it]) post := by
  induction front generalizing behind with
  | nil => exact .inl ⟨rfl, forall_mem_nil _⟩
  | cons it front ih =>
    cases hstop : stop it with
    | true =>
      refine .inr ⟨_, front.reverse, it, behind, by rw [loop, if_pos hstop], hstop, ?_, ?_, h⟩ <;>
        simp
    | false =>
      have hloop : loop stop x (it :: front) behind = loop stop x front (it :: behind) := by
        rw [loop, hstop]
        rfl
      have hbehind : ∀ a ∈ it :: behind, stop a = false := forall_mem_cons.mpr ⟨hstop, h⟩
      rw [hloop]
      rcases ih hbehind with ⟨hnone, hfront⟩ | ⟨l', pre, it', post, hsome, hit', hplaced⟩
      · exact .inl ⟨hnone, forall_mem_cons.mpr ⟨hstop, hfront⟩⟩
      · refine .inr ⟨l', pre, it', post, hsome, hit', ?_, hplaced.after, hplaced.passed⟩
        rw [← hplaced.before]
        simp

theorem insertBehind_spec (stop : α → Bool) (x : α) (l : List α) :
    (insertBehind stop x l = none ∧ Placed stop x l (x :: l) [] l) ∨
      ∃ l' pre it post, insertBehind stop x l = some l' ∧ stop it = true ∧
        Placed stop x l l' (pre ++ [it]) post := by
  rcases loop_spec l.reverse x (forall_mem_nil (stop · = false))
    with ⟨hnone, hfront⟩ | ⟨l', pre, it, post, hsome, hit, hplaced⟩
  · exact .inl ⟨hnone, rfl, rfl, fun a ha => hfront a (mem_reverse.mpr ha)⟩
  · refine .inr ⟨l', pre, it, post, hsome, hit, ?_, hplaced.after, hplaced.passed⟩
    rw [← hplaced.before]
    simp

namespace Placed

variable {pre post : List α}

theorem perm (h : Placed stop x l l' pre post) : l'.Perm (x :: l) := by
  rw [h.before, h.after]
  exact perm_middle

theorem mem_iff (h : Placed stop x l l' pre post) {a : α} : a ∈ l' ↔ a = x ∨ a ∈ l := by
  rw [h.perm.mem_iff, mem_cons]

theorem pairwise (h : Placed stop x l l' pre post) (hl : l.Pairwise R) (hpre : ∀ a ∈ pre, R a x)
    (hpost : ∀ a ∈ post, R x a) : l'.Pairwise R := by
  rw [h.before, pairwise_append] at hl
  rw [h.after, pairwise_append, pairwise_cons]
  refine ⟨hl.1, ⟨hpost, hl.2.1⟩, fun a ha b hb => ?_⟩
  rcases mem_cons.mp hb with rfl | hb
  · exact hpre a ha
  · exact hl.2.2 a ha b hb

end Placed

end Gem5.BackInsert
