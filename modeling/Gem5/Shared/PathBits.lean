import Mathlib.Data.Finset.Card
import Mathlib.Algebra.Order.Ring.Nat

/-!
# A bit at every node of a binary tree

A node is named by the path from the root to it. `follow` goes from the root where the bits
point; `turn` sets the bits on a path, each as a function of the way the path goes there.
-/

namespace Gem5.PathBits

open List

def sub (d : Bool) (bits : List Bool → Bool) : List Bool → Bool := fun q => bits (d :: q)

def follow : Nat → (List Bool → Bool) → List Bool
  | 0, _ => []
  | k + 1, bits => bits [] :: follow k (sub (bits []) bits)

def turn (f : Bool → Bool) : List Bool → (List Bool → Bool) → List Bool → Bool
  | [], bits, q => bits q
  | d :: _, _, [] => f d
  | d :: p, bits, e :: q => if e = d then turn f p (sub d bits) q else bits (e :: q)

variable {f : Bool → Bool} {bits bits' : List Bool → Bool} {d e : Bool} {p q a : List Bool}
    {k n : Nat}

theorem follow_length : ∀ {k : Nat} {bits : List Bool → Bool}, (follow k bits).length = k := by
  intro k
  induction k with
  | zero => exact rfl
  | succ k ih =>
    intro bits
    rw [follow, length_cons, ih]

theorem turn_root : turn f (d :: p) bits [] = f d := rfl

theorem sub_turn : sub d (turn f (d :: p) bits) = turn f p (sub d bits) := by
  funext q
  exact if_pos rfl

theorem sub_turn_of_ne (h : e ≠ d) : sub e (turn f (d :: p) bits) = sub e bits := by
  funext q
  exact if_neg h

theorem follow_turn_id : ∀ {p : List Bool} {bits : List Bool → Bool},
    follow p.length (turn id p bits) = p := by
  intro p
  induction p with
  | nil => exact rfl
  | cons d p ih =>
    intro bits
    rw [length_cons, follow, turn_root, id, sub_turn, ih]

section Protection

/-- The bits after the paths `ps` were turned away from, one after the other. -/
def turnAll (ps : List (List Bool)) (bits : List Bool → Bool) : List Bool → Bool :=
  ps.foldl (fun bits p => turn not p bits) bits

/-- What is left of the paths that go to side `d`. -/
def tails (d : Bool) (ps : List (List Bool)) : List (List Bool) :=
  ps.filterMap fun p => if p.head? = some d then some p.tail else none

theorem turnAll_cons (p : List Bool) (ps : List (List Bool)) :
    turnAll (p :: ps) bits = turnAll ps (turn not p bits) := rfl

theorem sub_turnAll : ∀ {ps : List (List Bool)} {bits : List Bool → Bool}, (∀ p ∈ ps, p ≠ []) →
    sub d (turnAll ps bits) = turnAll (tails d ps) (sub d bits) := by
  intro ps
  induction ps with
  | nil => exact fun _ => rfl
  | cons p ps ih =>
    intro bits hne
    rw [forall_mem_cons] at hne
    obtain ⟨e, p, rfl⟩ := exists_cons_of_ne_nil hne.1
    rw [turnAll_cons, ih hne.2]
    by_cases hed : e = d
    · subst hed
      have htails : tails e ((e :: p) :: ps) = p :: tails e ps := by simp [tails]
      rw [htails, turnAll_cons, sub_turn]
    · have htails : tails d ((e :: p) :: ps) = tails d ps := by simp [tails, hed]
      rw [htails, sub_turn_of_ne (Ne.symm hed)]

theorem turnAll_root : ∀ {ps : List (List Bool)} {bits : List Bool → Bool},
    (∀ p ∈ ps, p.head? = some d) → bits [] = !d → turnAll ps bits [] = !d := by
  intro ps
  induction ps with
  | nil => exact fun _ h => h
  | cons p ps ih =>
    intro bits hheads hroot
    rw [forall_mem_cons] at hheads
    obtain ⟨p, rfl⟩ := List.head?_eq_some_iff.mp hheads.1
    exact ih hheads.2 turn_root

theorem mem_tails {ps : List (List Bool)} : p ∈ tails d ps ↔ d :: p ∈ ps := by
  unfold tails
  rw [mem_filterMap]
  constructor
  · rintro ⟨x, hx, heq⟩
    split at heq
    · rename_i hhead
      obtain ⟨rest, rfl⟩ := List.head?_eq_some_iff.mp hhead
      obtain rfl := Option.some.inj heq
      exact hx
    · cases heq
  · intro hmem
    exact ⟨d :: p, hmem, by simp⟩

theorem card_tails_lt {ps : List (List Bool)} (hmem : q ∈ ps) (hother : q.head? ≠ some d) :
    (tails d ps).toFinset.card < ps.toFinset.card := by
  have hsub : (tails d ps).toFinset.image (List.cons d) ⊆ ps.toFinset.erase q := by
    intro x hx
    obtain ⟨p, hp, rfl⟩ := Finset.mem_image.mp hx
    refine Finset.mem_erase.mpr ⟨?_, mem_toFinset.mpr (mem_tails.mp (mem_toFinset.mp hp))⟩
    rintro rfl
    exact hother rfl
  have hinj : ((tails d ps).toFinset.image (List.cons d)).card = (tails d ps).toFinset.card :=
    Finset.card_image_of_injective _ fun _ _ h => (List.cons.inj h).2
  calc (tails d ps).toFinset.card ≤ (ps.toFinset.erase q).card := hinj ▸ Finset.card_le_card hsub
    _ < ps.toFinset.card := Finset.card_erase_lt_of_mem (mem_toFinset.mpr hmem)

theorem follow_turnAll_ne : ∀ {k : Nat} {a : List Bool} {ps : List (List Bool)}
    {bits : List Bool → Bool}, a.length = k → (∀ p ∈ ps, p.length = k) → a ∉ ps →
    ps.toFinset.card < k → follow k (turnAll ps (turn not a bits)) ≠ a := by
  intro k
  induction k with
  | zero => exact fun _ _ _ hlt => absurd hlt (Nat.not_lt_zero _)
  | succ k ih =>
    intro a ps bits ha hps hnot hcard heq
    obtain ⟨d, a, rfl⟩ := exists_cons_of_length_eq_add_one ha
    have hne : ∀ p ∈ ps, p ≠ [] := by
      rintro p hp rfl
      cases hps [] hp
    obtain ⟨hroot, hrest⟩ := List.cons.inj heq
    by_cases hsame : ∀ p ∈ ps, p.head? = some d
    · rw [turnAll_root hsame turn_root] at hroot
      cases d <;> cases hroot
    · obtain ⟨q, hq⟩ := not_forall.mp hsame
      obtain ⟨hmem, hother⟩ := Classical.not_imp.mp hq
      have hlt := card_tails_lt hmem hother
      rw [hroot, sub_turnAll hne, sub_turn] at hrest
      refine ih (Nat.succ.inj ha) (fun p hp => ?_) (fun hin => hnot (mem_tails.mp hin)) ?_ hrest
      · exact Nat.succ.inj (hps _ (mem_tails.mp hp))
      · omega

end Protection

section Rounds

def round (k : Nat) (bits : List Bool → Bool) : List Bool → Bool := turn not (follow k bits) bits

/-- The paths that are followed in `n` rounds. -/
def rounds (k : Nat) : Nat → (List Bool → Bool) → List (List Bool)
  | 0, _ => []
  | n + 1, bits => follow k bits :: rounds k n (round k bits)

def paths : Nat → List (List Bool)
  | 0 => [[]]
  | k + 1 => (paths k).map (List.cons false) ++ (paths k).map (List.cons true)

theorem round_root : round (k + 1) bits [] = !bits [] := rfl

theorem sub_round : sub (bits []) (round (k + 1) bits) = round k (sub (bits []) bits) := sub_turn

theorem sub_round_other : sub (!bits []) (round (k + 1) bits) = sub (!bits []) bits :=
  sub_turn_of_ne (by cases bits [] <;> decide)

theorem rounds_perm : ∀ {n : Nat} {bits : List Bool → Bool}, (rounds (k + 1) (2 * n) bits).Perm
      ((rounds k n (sub (bits []) bits)).map (List.cons (bits [])) ++
        (rounds k n (sub (!bits []) bits)).map (List.cons (!bits []))) := by
  intro n
  induction n with
  | zero => exact fun {_} => List.Perm.refl _
  | succ n ih =>
    intro bits
    have hroot : round (k + 1) (round (k + 1) bits) [] = bits [] := by
      rw [round_root, round_root, Bool.not_not]
    have hsame :
        sub (bits []) (round (k + 1) (round (k + 1) bits)) = round k (sub (bits []) bits) := by
      have hother : sub (!round (k + 1) bits []) (round (k + 1) (round (k + 1) bits)) =
          sub (!round (k + 1) bits []) (round (k + 1) bits) := sub_round_other
      rw [round_root, Bool.not_not] at hother
      rw [hother, sub_round]
    have hother : sub (!bits []) (round (k + 1) (round (k + 1) bits)) =
        round k (sub (!bits []) bits) := by
      have hsame : sub (round (k + 1) bits []) (round (k + 1) (round (k + 1) bits)) =
          round k (sub (round (k + 1) bits []) (round (k + 1) bits)) := sub_round
      rw [round_root] at hsame
      rw [hsame, sub_round_other]
    have hsecond : follow (k + 1) (round (k + 1) bits) =
        (!bits []) :: follow k (sub (!bits []) bits) := by
      rw [follow, round_root, sub_round_other]
    have hrest := @ih (round (k + 1) (round (k + 1) bits))
    rw [hroot, hsame, hother] at hrest
    rw [Nat.mul_succ, rounds, rounds, hsecond, rounds]
    refine List.Perm.cons _ ?_
    exact (hrest.cons _).trans perm_middle.symm

theorem rounds_paths : ∀ {k : Nat} {bits : List Bool → Bool},
    (rounds k (2 ^ k) bits).Perm (paths k) := by
  intro k
  induction k with
  | zero => exact fun {_} => List.Perm.refl _
  | succ k ih =>
    intro bits
    rw [Nat.pow_succ, mul_comm]
    refine rounds_perm.trans ?_
    refine (((ih.map _).append (ih.map _))).trans ?_
    cases bits [] with
    | false => exact List.Perm.refl _
    | true => exact perm_append_comm

end Rounds

end Gem5.PathBits
