import Mathlib.Data.List.Pairwise
import Mathlib.Tactic.SplitIfs

/-!
# Positions with some left out

`skip p` counts the positions other than `p`; `unskip p` goes back. For a list of
positions that are left out, in ascending order, `gather` finds the `j`-th position that
is kept and `scatter` the number of a kept position. `gatherFrom` is `gather` when each
position has already moved down by the ones left out before it.
-/

namespace Gem5.Positions

open List

def skip (p j : Nat) : Nat := if j < p then j else j + 1

def unskip (p j : Nat) : Nat := if j < p then j else j - 1

def gather : List Nat → Nat → Nat
  | [], j => j
  | p :: ps, j => gather ps (skip p j)

def scatter : List Nat → Nat → Nat
  | [], j => j
  | p :: ps, j => unskip p (scatter ps j)

def gatherFrom : Nat → List Nat → Nat → Nat
  | _, [], j => j
  | i, p :: ps, j => skip (p - i) (gatherFrom (i + 1) ps j)

variable {p q i j : Nat} {ps : List Nat}

theorem skip_ne : skip p j ≠ p := by
  unfold skip
  split <;> omega

theorem skip_le : skip p j ≤ j + 1 := by
  unfold skip
  split <;> omega

theorem unskip_skip : unskip p (skip p j) = j := by
  unfold unskip skip
  split_ifs <;> omega

theorem skip_unskip (h : j ≠ p) : skip p (unskip p j) = j := by
  unfold unskip skip
  split_ifs <;> omega

theorem skip_skip (h : p < q) : skip p (skip (q - 1) j) = skip q (skip p j) := by
  unfold skip
  split_ifs <;> omega

theorem gather_le : gather ps j ≤ j + ps.length := by
  induction ps generalizing j with
  | nil => exact Nat.le_refl j
  | cons p ps ih =>
    have hskip : skip p j ≤ j + 1 := skip_le
    have hrest : gather ps (skip p j) ≤ skip p j + ps.length := ih
    rw [gather, length_cons]
    omega

theorem gather_of_lt (h : ∀ q ∈ ps, j < q) : gather ps j = j := by
  induction ps with
  | nil => rfl
  | cons q ps ih =>
    have hq : skip q j = j := if_pos (h q mem_cons_self)
    rw [gather, hq]
    exact ih fun q' hq' => h q' (mem_cons_of_mem q hq')

theorem scatter_gather : scatter ps (gather ps j) = j := by
  induction ps generalizing j with
  | nil => rfl
  | cons p ps ih => rw [gather, scatter, ih, unskip_skip]

section Ascending

variable (hps : ps.Pairwise (· < ·))
include hps

theorem gather_notMem : gather ps j ∉ ps := by
  induction ps generalizing j with
  | nil => exact not_mem_nil
  | cons p ps ih =>
    obtain ⟨hp, hps⟩ := pairwise_cons.mp hps
    rw [gather, mem_cons]
    rintro (heq | hmem)
    · have hback := congrArg (scatter ps) heq
      rw [scatter_gather] at hback
      have hself : scatter ps p = p := by
        have hgather : scatter ps (gather ps p) = p := scatter_gather
        rwa [gather_of_lt hp] at hgather
      exact skip_ne (hback.trans hself)
    · exact ih hps hmem

theorem gather_scatter (hj : j ∉ ps) : gather ps (scatter ps j) = j ∧
    ∀ p, (∀ q ∈ ps, p < q) → j ≠ p → scatter ps j ≠ p := by
  induction ps with
  | nil => exact ⟨rfl, fun p _ hne => hne⟩
  | cons p ps ih =>
    obtain ⟨hp, hps⟩ := pairwise_cons.mp hps
    obtain ⟨hjp, hj⟩ := not_or.mp (mem_cons.not.mp hj)
    obtain ⟨hback, hlow⟩ := ih hps hj
    have hne : scatter ps j ≠ p := hlow p hp hjp
    have hboth : gather (p :: ps) (scatter (p :: ps) j) = j := by
      rw [scatter, gather, skip_unskip hne, hback]
    refine ⟨hboth, ?_⟩
    -- a position below all that are left out keeps its number
    intro r hr hjr heq
    rw [heq, gather_of_lt hr] at hboth
    exact hjr hboth.symm

theorem ascending_length {b : Nat} (hp : ∀ q ∈ ps, p < q) (hb : ∀ q ∈ ps, q < b) (hpb : p < b) :
    p + ps.length < b := by
  induction ps generalizing p with
  | nil => exact hpb
  | cons q ps ih =>
    obtain ⟨hq, hps⟩ := pairwise_cons.mp hps
    have hrest := ih hps hq (fun r hr => hb r (mem_cons_of_mem q hr)) (hb q mem_cons_self)
    have hpq := hp q mem_cons_self
    rw [length_cons]
    omega

theorem gather_of_le {b : Nat} (hb : ∀ q ∈ ps, q < b) (hj : b ≤ j + ps.length) :
    gather ps j = j + ps.length := by
  induction ps generalizing j with
  | nil => rfl
  | cons p ps ih =>
    obtain ⟨hp, hps⟩ := pairwise_cons.mp hps
    rw [length_cons] at hj
    have hroom := ascending_length hps hp (fun q hq => hb q (mem_cons_of_mem p hq))
      (hb p mem_cons_self)
    have hlt : ¬ j < p := by omega
    rw [gather, skip, if_neg hlt, ih hps (fun q hq => hb q (mem_cons_of_mem p hq)) (by omega),
      length_cons]
    omega

theorem gatherFrom_skip (hi : i ≤ p) (hp : ∀ q ∈ ps, p < q) :
    skip (p - i) (gatherFrom (i + 1) ps j) = gatherFrom i ps (skip (p - i) j) := by
  induction ps generalizing i p with
  | nil => rfl
  | cons q ps ih =>
    obtain ⟨hq, hps⟩ := pairwise_cons.mp hps
    have hpq : p < q := hp q mem_cons_self
    have hnext : ∀ r ∈ ps, p + 1 < r := fun r hr => by
      have := hq r hr
      omega
    have hrest := ih hps (by omega : i + 1 ≤ p + 1) hnext
    rw [Nat.add_sub_add_right] at hrest
    have hswap := skip_skip (j := gatherFrom (i + 1 + 1) ps j) (by omega : p - i < q - i)
    have hdown : q - (i + 1) = q - i - 1 := by omega
    rw [gatherFrom, gatherFrom, ← hrest, ← hswap, hdown]

theorem gatherFrom_zero : gatherFrom 0 ps j = gather ps j := by
  induction ps generalizing j with
  | nil => rfl
  | cons p ps ih =>
    obtain ⟨hp, hps⟩ := pairwise_cons.mp hps
    have hskip := gatherFrom_skip (j := j) hps (Nat.zero_le p) hp
    rw [Nat.sub_zero] at hskip
    rw [gatherFrom, gather, Nat.sub_zero, hskip, ih hps]

end Ascending

end Gem5.Positions
