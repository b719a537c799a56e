import Mathlib.Data.List.Count
import Mathlib.Algebra.Order.Ring.Nat

/-!
# Bit fields of 64-bit words

`insertBits` is specified bit by bit. Its bounds are 32-bit unsigned, so `first + 1` may
wrap around to zero; then nothing is inserted.
-/

namespace Gem5.Base

open List

open BitVec

def mask (nbits : Nat) : BitVec 64 :=
  if 64 ≤ nbits then BitVec.allOnes 64 else (1#64 <<< nbits) - 1#64

def mbits (val : BitVec 64) (first last : Nat) : BitVec 64 :=
  val &&& (mask ((first + 1) % 2 ^ 32) &&& ~~~mask last)

def bits (val : BitVec 64) (first last : Nat) : BitVec 64 :=
  (val >>> last) &&& mask (first - last + 1)

def insertBits (val : BitVec 64) (first last : Nat) (bitVal : BitVec 64) : BitVec 64 :=
  let bmask := mbits (BitVec.allOnes 64) first last
  (val &&& ~~~bmask) ||| ((bitVal <<< last) &&& bmask)

def popCount (val : BitVec 64) : Nat := (List.range 64).countP fun i => val.getLsbD i

def ctz64 (value : BitVec 64) : Nat := value.ctz.toNat

def alignToPowerOfTwo (val : BitVec 64) : BitVec 64 :=
  let val := val - 1
  let val := val ||| (val >>> 1)
  let val := val ||| (val >>> 2)
  let val := val ||| (val >>> 4)
  let val := val ||| (val >>> 8)
  let val := val ||| (val >>> 16)
  let val := val ||| (val >>> 32)
  val + 1

variable {a b m : BitVec 64} {i p n : Nat}

theorem getLsbD_mask (hi : i < 64) : (mask n).getLsbD i = decide (i < n) := by
  unfold mask
  split
  · rw [getLsbD_allOnes, decide_eq_true hi, decide_eq_true (by omega)]
  · have hpow : (1#64 <<< n) - 1#64 = BitVec.ofNat 64 (2 ^ n - 1) := by
      apply eq_of_toNat_eq
      have hpos : 0 < 2 ^ n := Nat.two_pow_pos n
      rw [toNat_sub, toNat_shiftLeft, toNat_ofNat, toNat_ofNat]
      omega
    rw [hpow, getLsbD_ofNat, Nat.testBit_two_pow_sub_one, decide_eq_true hi, Bool.true_and]

theorem getLsbD_bits {val : BitVec 64} {first last i : Nat} :
    (bits val first last).getLsbD i =
      (val.getLsbD (last + i) && decide (i < first - last + 1)) := by
  rw [bits, getLsbD_and, getLsbD_ushiftRight]
  by_cases hi : i < 64
  · rw [getLsbD_mask hi]
  · rw [getLsbD_of_ge val (last + i) (by omega), Bool.false_and, Bool.false_and]

theorem alignToPowerOfTwo_twoPow : ∀ e : Fin 64,
    alignToPowerOfTwo (BitVec.ofNat 64 (2 ^ e.val)) =
      BitVec.ofNat 64 (2 ^ e.val) := by decide +kernel

theorem getLsbD_insertBits {first last : Nat} (hi : i < 64) :
    (insertBits a first last b).getLsbD i =
      if last ≤ i ∧ i < (first + 1) % 2 ^ 32 then b.getLsbD (i - last) else a.getLsbD i := by
  have hmask : (mbits (BitVec.allOnes 64) first last).getLsbD i =
      decide (last ≤ i ∧ i < (first + 1) % 2 ^ 32) := by
    rw [mbits, getLsbD_and, getLsbD_and, getLsbD_not, getLsbD_mask hi,
      getLsbD_mask hi, getLsbD_allOnes]
    by_cases hlow : last ≤ i
    · simp [hi, hlow, Nat.not_lt.mpr hlow]
    · simp [hi, hlow, Nat.not_le.mp hlow]
  rw [insertBits, getLsbD_or, getLsbD_and, getLsbD_and, getLsbD_not, getLsbD_shiftLeft, hmask]
  by_cases hin : last ≤ i ∧ i < (first + 1) % 2 ^ 32
  · rw [if_pos hin, decide_eq_true hin]
    simp [hi, Nat.not_lt.mpr hin.1]
  · rw [if_neg hin, decide_eq_false hin]
    simp [hi]

theorem getLsbD_insertBit (hi : i < 64) (hp : p < 64) :
    (insertBits a p p b).getLsbD i = if i = p then b.getLsbD 0 else a.getLsbD i := by
  rw [getLsbD_insertBits hi]
  by_cases h : i = p
  · rw [if_pos (by omega), if_pos h, h, Nat.sub_self]
  · rw [if_neg (by omega), if_neg h]

theorem ctz64_lt (h : m ≠ 0) : ctz64 m < 64 := by
  have hlt : m.ctz < 64#64 := ctz_lt_iff_ne_zero.mpr h
  exact hlt

theorem getLsbD_ctz64 (h : m ≠ 0) : m.getLsbD (ctz64 m) = true :=
  getLsbD_true_ctz_of_ne_zero h

theorem getLsbD_of_lt_ctz64 (h : i < ctz64 m) : m.getLsbD i = false :=
  getLsbD_false_of_lt_ctz h

theorem countP_except {f g : Nat → Bool} {l : List Nat} (hnodup : l.Nodup) (hp : p ∈ l)
    (hsame : ∀ i ∈ l, i ≠ p → f i = g i) (hg : g p = false) :
    l.countP f = l.countP g + (f p).toNat := by
  have hperm := perm_cons_erase hp
  have hrest : (l.erase p).countP f = (l.erase p).countP g := by
    apply countP_congr
    intro i hi
    obtain ⟨hne, hi⟩ := hnodup.mem_erase_iff.mp hi
    rw [hsame i hi hne]
  rw [hperm.countP_eq, hperm.countP_eq, countP_cons, countP_cons, hrest, hg]
  cases f p <;> rfl

theorem popCount_eq (hp : p < 64) (hsame : ∀ i < 64, i ≠ p → a.getLsbD i = b.getLsbD i)
    (hb : b.getLsbD p = false) : popCount a = popCount b + (a.getLsbD p).toNat :=
  countP_except nodup_range (mem_range.mpr hp)
    (fun i hi => hsame i (mem_range.mp hi)) hb

end Gem5.Base
