import Mathlib.Data.List.Basic
import Mathlib.Algebra.Order.Group.Nat

/-!
# Blocks cut into cells of one size

A block whose length is a multiple of `n` is sent as cells of `n` elements. The first
cell of a block carries a mark. `left` is what is still to be sent of a queue of blocks
when the first `k` cells of its front block are gone.
-/

namespace Gem5.Cells

open List

variable {α : Type} {n k : Nat} {b : List α} {queue : List (List α)}

def cell (n : Nat) (b : List α) (i : Nat) : List α := (b.drop (i * n)).take n

def count (n : Nat) (b : List α) : Nat := b.length / n

def cells (n : Nat) (b : List α) : List (List α) := (List.range (count n b)).map (cell n b)

def marked (n : Nat) (b : List α) : List (List α × Bool) :=
  (List.range (count n b)).map fun i => (cell n b i, i == 0)

def left (n : Nat) (queue : List (List α)) (k : Nat) : List (List α × Bool) :=
  (queue.flatMap (marked n)).drop k

@[simp] theorem marked_length : (marked n b).length = count n b := by
  simp [marked]

theorem cell_length {i : Nat} (hdvd : n ∣ b.length) (hi : i < count n b) :
    (cell n b i).length = n := by
  obtain ⟨m, hm⟩ := hdvd
  have hn : 0 < n := by
    rcases Nat.eq_zero_or_pos n with rfl | hn
    · simp [count] at hi
    · exact hn
  have him : i < m := by
    rw [count, hm, Nat.mul_div_cancel_left m hn] at hi
    exact hi
  have hle : (i + 1) * n ≤ m * n := Nat.mul_le_mul_right n him
  have hlen : b.length = m * n := hm.trans (mul_comm n m)
  have hstep : (i + 1) * n = i * n + n := Nat.succ_mul i n
  rw [cell, length_take, length_drop]
  omega

theorem take_cells (n : Nat) (b : List α) :
    ∀ m, ((List.range m).map (cell n b)).flatten = b.take (m * n) := by
  intro m
  induction m with
  | zero => simp
  | succ m ih =>
    rw [range_succ, map_append, flatten_append, ih, Nat.succ_mul, take_add]
    simp [cell]

theorem cells_flatten (hdvd : n ∣ b.length) : (cells n b).flatten = b := by
  rw [cells, take_cells, count, Nat.div_mul_cancel hdvd, take_length]

theorem marked_data (n : Nat) (b : List α) : (marked n b).map Prod.fst = cells n b := by
  simp [marked, cells]

theorem flatMap_marked_flatten (h : ∀ b ∈ queue, n ∣ b.length) :
    ((queue.flatMap (marked n)).map Prod.fst).flatten = queue.flatten := by
  induction queue with
  | nil => rfl
  | cons b rest ih =>
    rw [flatMap_cons, map_append, flatten_append, marked_data,
      cells_flatten (h b mem_cons_self), ih fun c hc => h c (mem_cons_of_mem b hc),
      flatten_cons]

theorem count_pos (hn : 0 < n) (hdvd : n ∣ b.length) (hb : b ≠ []) : 0 < count n b := by
  have hlen : 0 < b.length := length_pos_iff.mpr hb
  exact Nat.div_pos (Nat.le_of_dvd hlen hdvd) hn

theorem getElem?_marked (hk : k < count n b) : (marked n b)[k]? = some (cell n b k, k == 0) := by
  rw [marked, List.getElem?_map, List.getElem?_range hk]
  rfl

theorem left_cons (hk : k < count n b) :
    left n (b :: queue) k = (cell n b k, k == 0) :: left n (b :: queue) (k + 1) := by
  have hlt : k < ((b :: queue).flatMap (marked n)).length := by
    rw [flatMap_cons, length_append, marked_length]
    omega
  unfold left
  rw [drop_eq_getElem_cons hlt]
  congr 1
  apply Option.some.inj
  rw [← List.getElem?_eq_getElem hlt, flatMap_cons,
    List.getElem?_append_left (by rw [marked_length]; exact hk), getElem?_marked hk]

theorem left_next : left n (b :: queue) (count n b) = left n queue 0 := by
  unfold left
  rw [flatMap_cons, drop_left' marked_length, drop_zero]

theorem left_append (hk : k ≤ (queue.flatMap (marked n)).length) :
    left n (queue ++ [b]) k = left n queue k ++ marked n b := by
  unfold left
  rw [flatMap_append, drop_append_of_le_length hk, flatMap_singleton]

end Gem5.Cells
