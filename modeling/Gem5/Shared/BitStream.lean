import Mathlib.Data.BitVec

/-!
# Bits in the order of their bytes

A sequence of bytes as one number whose first byte is the most significant one, and a
checksum that adds a window of such a number for each bit of an input.
-/

namespace Gem5.BitStream

open BitVec List

/-- `n` bytes as a number, the first byte on the left. -/
def ofBytes (f : Nat → BitVec 8) : (n : Nat) → BitVec (8 * n)
  | 0 => 0
  | n + 1 => ofBytes f n ++ f n

variable {f g : Nat → BitVec 8} {n s : Nat}

theorem getLsbD_ofBytes (hs : s < 8 * n) :
    (ofBytes f n).getLsbD (8 * n - 1 - s) = (f (s / 8)).getLsbD (7 - s % 8) := by
  induction n with
  | zero => omega
  | succ n ih =>
    rw [ofBytes, getLsbD_append]
    by_cases hlast : 8 * n ≤ s
    · have hpos : 8 * (n + 1) - 1 - s = 7 - s % 8 := by omega
      have hbyte : s / 8 = n := by omega
      rw [hpos, hbyte, if_pos (by omega)]
    · have hpos : 8 * (n + 1) - 1 - s - 8 = 8 * n - 1 - s := by omega
      rw [if_neg (by omega), hpos]
      exact ih (by omega)

def xorWindows {w : Nat} (window : Nat → BitVec w) : Nat → List Bool → BitVec w → BitVec w
  | _, [], r => r
  | p, b :: bits, r => xorWindows window (p + 1) bits (if b then r ^^^ window p else r)

theorem xorWindows_congr {w : Nat} {u v : Nat → BitVec w} {p : Nat} {bits : List Bool}
    {r : BitVec w}
    (h : ∀ q, p ≤ q → q < p + bits.length → u q = v q) :
    xorWindows u p bits r = xorWindows v p bits r := by
  induction bits generalizing p r with
  | nil => rfl
  | cons b bits ih =>
    have hlen : (b :: bits).length = bits.length + 1 := rfl
    rw [xorWindows, h p le_rfl (by omega)]
    apply ih
    intro q hp hq
    exact h q (by omega) (by omega)

section Windows

variable {w p q : Nat} {u v : Nat → BitVec w} {bits rest : List Bool} {r c : BitVec w}

theorem xorWindows_append :
    xorWindows u p (bits ++ rest) r =
      xorWindows u (p + bits.length) rest (xorWindows u p bits r) := by
  induction bits generalizing p r with
  | nil => rfl
  | cons b bits ih =>
    have hpos : p + (b :: bits).length = p + 1 + bits.length := by
      rw [length_cons]
      omega
    rw [hpos]
    exact ih

theorem xorWindows_xor : xorWindows u p bits (r ^^^ c) = xorWindows u p bits r ^^^ c := by
  induction bits generalizing p r with
  | nil => rfl
  | cons b bits ih =>
    rw [xorWindows, xorWindows]
    cases b with
    | false => exact ih
    | true =>
      rw [if_pos rfl, if_pos rfl, ← ih, xor_assoc, xor_assoc, BitVec.xor_comm c]

theorem xorWindows_xor_xorWindows : xorWindows u p bits r ^^^ xorWindows v p bits c =
      xorWindows (fun i => u i ^^^ v i) p bits (r ^^^ c) := by
  induction bits generalizing p r c with
  | nil => rfl
  | cons b bits ih =>
    rw [xorWindows, xorWindows, xorWindows, ih]
    cases b with
    | false => rfl
    | true =>
      have hsum : r ^^^ u p ^^^ (c ^^^ v p) = r ^^^ c ^^^ (u p ^^^ v p) := by
        rw [xor_assoc, xor_assoc, ← BitVec.xor_assoc (u p), BitVec.xor_comm (u p) c, xor_assoc]
      rw [if_pos rfl, if_pos rfl, if_pos rfl, hsum]

theorem xorWindows_reverse (h : ∀ i, i < bits.length → u (p + i) = v (q + (bits.length - 1 - i))) :
    xorWindows u p bits.reverse r = xorWindows v q bits r := by
  induction bits generalizing q r with
  | nil => rfl
  | cons b bits ih =>
    have hlast : u (p + bits.length) = v q := by
      rw [h bits.length (by simp)]
      simp
    have hrest : xorWindows u p bits.reverse r = xorWindows v (q + 1) bits r := by
      apply ih
      intro i hi
      have hpos : q + ((b :: bits).length - 1 - i) = q + 1 + (bits.length - 1 - i) := by
        rw [length_cons]
        omega
      rw [h i (by rw [length_cons]; omega), hpos]
    rw [reverse_cons, xorWindows_append, length_reverse, xorWindows, xorWindows, xorWindows,
      hrest, hlast]
    cases b with
    | false => rfl
    | true => rw [if_pos rfl, if_pos rfl, xorWindows_xor]

end Windows

end Gem5.BitStream
