import Gem5.Base.Bitfield

/-!
# Skewed indexing

The set of an address in a way is a combination of its set bits and the tag bits above them, each
shifted in a register whose new top bit is the sum of the old top and bottom bits. `hash` satisfies
`hash^n = hash^(n-1) + 1` on words of `n` bits; that is why `deskew` can undo the functions that
keep a copy of the set bits by hashing again.
-/

open Bool BitVec Function

namespace Gem5.Mem

open Base

/-- The constructor refuses other parameters. The number of sets is `2 ^ n`. -/
structure SkewedAssociative where
  setShift : Nat
  n : Nat
  sets : 2 ≤ n
  fits : setShift + 2 * n ≤ 64

namespace SkewedAssociative

variable (g : SkewedAssociative)

def msbShift : Nat := g.n - 1

def tagShift : Nat := g.setShift + g.n

def setMask : BitVec 64 := mask g.n

def hash (addr : BitVec 64) : BitVec 64 :=
  let lsb := bits addr 0 0
  let msb := bits addr g.msbShift g.msbShift
  insertBits (addr >>> 1) g.msbShift g.msbShift (msb ^^^ lsb)

def dehash (addr : BitVec 64) : BitVec 64 :=
  let msb := bits addr (g.msbShift - 1) (g.msbShift - 1)
  let xorBit := bits addr g.msbShift g.msbShift
  insertBits (mbits addr (g.msbShift - 1) 0 <<< 1) 0 0 (msb ^^^ xorBit)

def addr1 (addr : BitVec 64) : BitVec 64 := bits addr g.msbShift 0

def addr2 (addr : BitVec 64) : BitVec 64 := bits addr (2 * (g.msbShift + 1) - 1) (g.msbShift + 1)

/-- The switch of `skew`. -/
def select (way : Nat) (a b : BitVec 64) : BitVec 64 :=
  match way % 8 with
  | 0 => g.hash a ^^^ g.hash b ^^^ b
  | 1 => g.hash a ^^^ g.hash b ^^^ a
  | 2 => g.hash a ^^^ g.dehash b ^^^ b
  | 3 => g.hash a ^^^ g.dehash b ^^^ a
  | 4 => g.dehash a ^^^ g.hash b ^^^ b
  | 5 => g.dehash a ^^^ g.hash b ^^^ a
  | 6 => g.dehash a ^^^ g.dehash b ^^^ b
  | _ => g.dehash a ^^^ g.dehash b ^^^ a

def skew (addr : BitVec 64) (way : Nat) : BitVec 64 :=
  g.hash^[way / 8] (g.select way (g.addr1 addr) (g.addr2 addr))

/-- The switch of `deskew`. -/
def deselect (way : Nat) (a b : BitVec 64) : BitVec 64 :=
  match way % 8 with
  | 0 => g.dehash (a ^^^ g.hash b ^^^ b)
  | 1 => g.hash^[g.msbShift] (a ^^^ g.hash b)
  | 2 => g.dehash (a ^^^ g.dehash b ^^^ b)
  | 3 => g.hash^[g.msbShift] (a ^^^ g.dehash b)
  | 4 => g.hash (a ^^^ g.hash b ^^^ b)
  | 5 => g.hash^[g.msbShift + 1] (a ^^^ g.hash b)
  | 6 => g.hash (a ^^^ g.dehash b ^^^ b)
  | _ => g.hash^[g.msbShift + 1] (a ^^^ g.dehash b)

def deskew (addr : BitVec 64) (way : Nat) : BitVec 64 :=
  g.deselect way
  (if 8 ≤ way then g.dehash^[way / 8] (g.addr1 addr) else g.addr1 addr) (g.addr2 addr)

def extractSet (addr : BitVec 64) (way : Nat) : BitVec 32 :=
  (g.skew (addr >>> g.setShift) way &&& g.setMask).setWidth 32

def regenerateAddr (tag : BitVec 64) (set : BitVec 32) (way : Nat) : BitVec 64 :=
  let addrSet := (tag <<< (g.msbShift + 1)) ||| set.setWidth 64
  (tag <<< g.tagShift) ||| ((g.deskew addrSet way &&& g.setMask) <<< g.setShift)

/-- A word of `n` bits. -/
def Short (x : BitVec 64) : Prop := ∀ i, g.n ≤ i → x.getLsbD i = false

variable {g : SkewedAssociative} {x y z : BitVec 64} {way i : Nat}

theorem n_le (g : SkewedAssociative) : g.n ≤ 32 := by
  have hfits := g.fits
  omega

theorem msbShift_add_one (g : SkewedAssociative) : g.msbShift + 1 = g.n := by
  have hsets := g.sets
  unfold msbShift
  omega

section Register

theorem Short.xor (hx : g.Short x) (hy : g.Short y) : g.Short (x ^^^ y) := fun i hi => by
  rw [getLsbD_xor, hx i hi, hy i hi, false_xor]

theorem Short.ext (hx : g.Short x) (hy : g.Short y)
    (h : ∀ i < g.n, x.getLsbD i = y.getLsbD i) : x = y := by
  apply eq_of_getLsbD_eq
  intro i _
  by_cases hi : i < g.n
  · exact h i hi
  · rw [hx i (not_lt.mp hi), hy i (not_lt.mp hi)]

theorem addr1_short (x : BitVec 64) : g.Short (g.addr1 x) := fun i hi => by
  have hmsb := g.msbShift_add_one
  rw [addr1, getLsbD_bits, decide_eq_false (by omega), Bool.and_false]

theorem addr2_short (x : BitVec 64) : g.Short (g.addr2 x) := fun i hi => by
  have hmsb := g.msbShift_add_one
  rw [addr2, getLsbD_bits, decide_eq_false (by omega), Bool.and_false]

theorem getLsbD_hash (hx : g.Short x) : (g.hash x).getLsbD i =
    if i + 1 = g.n then x.getLsbD (g.n - 1) ^^ x.getLsbD 0 else x.getLsbD (i + 1) := by
  have hn := g.n_le
  have hmsb := g.msbShift_add_one
  by_cases hi : i < 64
  · unfold hash
    rw [getLsbD_insertBit hi (by omega), getLsbD_xor, getLsbD_bits, getLsbD_bits,
      getLsbD_ushiftRight]
    by_cases htop : i = g.msbShift
    · rw [if_pos htop, if_pos (by omega), show g.msbShift + 0 = g.n - 1 by omega]
      simp
    · rw [if_neg htop, if_neg (by omega), add_comm]
  · rw [getLsbD_of_ge _ i (by omega), if_neg (by omega), hx (i + 1) (by omega)]

theorem getLsbD_dehash (hi : i < g.n) : (g.dehash x).getLsbD i =
    if i = 0 then x.getLsbD (g.n - 2) ^^ x.getLsbD (g.n - 1) else x.getLsbD (i - 1) := by
  have hn := g.n_le
  have hmsb := g.msbShift_add_one
  unfold dehash
  rw [getLsbD_insertBit (by omega) (by omega), getLsbD_xor, getLsbD_bits, getLsbD_bits,
    getLsbD_shiftLeft, mbits, getLsbD_and, getLsbD_and, getLsbD_not]
  by_cases hzero : i = 0
  · rw [if_pos hzero, if_pos hzero, show g.msbShift - 1 + 0 = g.n - 2 by omega,
      show g.msbShift + 0 = g.n - 1 by omega]
    simp
  · rw [getLsbD_mask (by omega), getLsbD_mask (by omega),
      Nat.mod_eq_of_lt (by omega : g.msbShift - 1 + 1 < 2 ^ 32)]
    have hlow : i - 1 < g.msbShift - 1 + 1 := by omega
    have h64 : i < 64 := by omega
    have hprev : i - 1 < 64 := by omega
    simp [hlow, h64, hzero, hprev]

theorem hash_short (hx : g.Short x) : g.Short (g.hash x) := fun i hi => by
  have hsets := g.sets
  rw [getLsbD_hash hx, if_neg (by omega), hx (i + 1) (by omega)]

theorem dehash_short (x : BitVec 64) : g.Short (g.dehash x) := fun i hi => by
  have hn := g.n_le
  have hsets := g.sets
  have hmsb := g.msbShift_add_one
  by_cases h64 : i < 64
  · unfold dehash
    rw [getLsbD_insertBit h64 (by omega), if_neg (by omega), getLsbD_shiftLeft, mbits,
      getLsbD_and, getLsbD_and, getLsbD_mask (by omega),
      Nat.mod_eq_of_lt (by omega : g.msbShift - 1 + 1 < 2 ^ 32),
        decide_eq_false (by omega : ¬ i - 1 < _)]
    simp
  · exact getLsbD_of_ge _ i (by omega)

section

variable (hx : g.Short x)
include hx

theorem dehash_hash : g.dehash (g.hash x) = x := by
  have hsets := g.sets
  refine (dehash_short _).ext hx fun i hi => ?_
  rw [getLsbD_dehash hi]
  by_cases hzero : i = 0
  · rw [if_pos hzero, getLsbD_hash hx, getLsbD_hash hx, if_neg (by omega), if_pos (by omega), hzero,
      show g.n - 2 + 1 = g.n - 1 by omega, ← Bool.xor_assoc, Bool.xor_self, false_xor]
  · rw [if_neg hzero, getLsbD_hash hx, if_neg (by omega), Nat.sub_add_cancel (by omega)]

theorem hash_dehash : g.hash (g.dehash x) = x := by
  have hsets := g.sets
  refine (hash_short (dehash_short x)).ext hx fun i hi => ?_
  rw [getLsbD_hash (dehash_short x)]
  by_cases htop : i + 1 = g.n
  · rw [if_pos htop, getLsbD_dehash (by omega), getLsbD_dehash (by omega), if_neg (by omega),
      if_pos rfl, show g.n - 1 - 1 = g.n - 2 by omega, ← Bool.xor_assoc, Bool.xor_self, false_xor,
      show i = g.n - 1 by omega]
  · rw [if_neg htop, getLsbD_dehash (by omega), if_neg (by omega), Nat.add_sub_cancel]

theorem hash_xor (hy : g.Short y) : g.hash (x ^^^ y) = g.hash x ^^^ g.hash y := by
  refine (hash_short (hx.xor hy)).ext ((hash_short hx).xor (hash_short hy)) fun i _ => ?_
  rw [getLsbD_hash (hx.xor hy)]
  simp only [getLsbD_xor, getLsbD_hash hx, getLsbD_hash hy]
  split
  · simp only [Bool.xor_assoc, xor_left_comm]
  · rfl

theorem iterate_hash_short (m : Nat) : g.Short (g.hash^[m] x) := by
  induction m with
  | zero => exact hx
  | succ m ih =>
    rw [iterate_succ_apply']
    exact hash_short ih

theorem iterate_hash_xor (hy : g.Short y) (m : Nat) :
    g.hash^[m] (x ^^^ y) = g.hash^[m] x ^^^ g.hash^[m] y := by
  induction m with
  | zero => rfl
  | succ m ih =>
    rw [iterate_succ_apply', ih, hash_xor (iterate_hash_short hx m) (iterate_hash_short hy m),
      ← iterate_succ_apply' g.hash, ← iterate_succ_apply' g.hash]

theorem iterate_dehash_hash (m : Nat) : g.dehash^[m] (g.hash^[m] x) = x := by
  induction m with
  | zero => rfl
  | succ m ih =>
    rw [iterate_succ_apply, iterate_succ_apply',
      dehash_hash (iterate_hash_short hx m), ih]

theorem getLsbD_iterate_hash {m : Nat} (hi : i + m < g.n) :
    (g.hash^[m] x).getLsbD i = x.getLsbD (i + m) := by
  induction m generalizing i with
  | zero => rfl
  | succ m ih =>
    rw [iterate_succ_apply', getLsbD_hash (iterate_hash_short hx m), if_neg (by omega),
      ih (by omega), show i + 1 + m = i + (m + 1) by omega]

theorem iterate_hash_eq : g.hash^[g.msbShift + 1] x ^^^ g.hash^[g.msbShift] x = x := by
  have hmsb := g.msbShift_add_one
  refine ((iterate_hash_short hx _).xor (iterate_hash_short hx _)).ext hx fun i hi => ?_
  -- bit `i` after `n` moves was the top bit after `i + 1` moves
  have htop : ∀ j m, g.n = i + 1 + j → m = j + (i + 1) →
      (g.hash^[m] x).getLsbD i = (g.hash^[i + 1] x).getLsbD (g.n - 1) := by
    rintro j m hj rfl
    rw [iterate_add_apply, getLsbD_iterate_hash (iterate_hash_short hx _) (by omega),
      show i + j = g.n - 1 by omega]
  have hbefore : (g.hash^[g.msbShift] x).getLsbD i = (g.hash^[i] x).getLsbD (g.n - 1) := by
    rw [show g.msbShift = (g.n - 1 - i) + i by omega, iterate_add_apply,
      getLsbD_iterate_hash (iterate_hash_short hx _) (by omega),
      show i + (g.n - 1 - i) = g.n - 1 by omega]
  have hbottom : (g.hash^[i] x).getLsbD 0 = x.getLsbD i := by
    rw [getLsbD_iterate_hash hx (by omega), zero_add]
  rw [getLsbD_xor, hbefore, htop (g.n - (i + 1)) _ (by omega) (by omega),
    iterate_succ_apply', getLsbD_hash (iterate_hash_short hx i), if_pos (by omega), hbottom,
    Bool.xor_comm, ← Bool.xor_assoc, Bool.xor_self, false_xor]

end

end Register

section Inverse

theorem xor_cancel_middle (x y z : BitVec 64) : x ^^^ y ^^^ z ^^^ y = x ^^^ z := by
  rw [BitVec.xor_assoc, BitVec.xor_assoc, BitVec.xor_comm z y, ← BitVec.xor_assoc y,
    BitVec.xor_self,
    BitVec.zero_xor]

theorem xor_cancel_both (x y z : BitVec 64) : x ^^^ y ^^^ z ^^^ y ^^^ z = x := by
  rw [xor_cancel_middle, BitVec.xor_assoc, BitVec.xor_self, xor_zero]

theorem iterate_hash_copy (hx : g.Short x) : g.hash^[g.msbShift] (g.hash x ^^^ x) = x := by
  rw [iterate_hash_xor (hash_short hx) hx, ← iterate_succ_apply, iterate_hash_eq hx]

theorem iterate_hash_dehashed_copy (hx : g.Short x) :
    g.hash^[g.msbShift + 1] (g.dehash x ^^^ x) = x := by
  rw [iterate_hash_xor (dehash_short x) hx, iterate_succ_apply, hash_dehash hx,
    BitVec.xor_comm, iterate_hash_eq hx]

theorem select_short (hx : g.Short x) (hy : g.Short y) : g.Short (g.select way x y) := by
  have hhx := hash_short hx
  have hhy := hash_short hy
  have hdx := dehash_short (g := g) x
  have hdy := dehash_short (g := g) y
  unfold select
  split
  · exact (hhx.xor hhy).xor hy
  · exact (hhx.xor hhy).xor hx
  · exact (hhx.xor hdy).xor hy
  · exact (hhx.xor hdy).xor hx
  · exact (hdx.xor hhy).xor hy
  · exact (hdx.xor hhy).xor hx
  · exact (hdx.xor hdy).xor hy
  · exact (hdx.xor hdy).xor hx

theorem deselect_select (hx : g.Short x) : g.deselect way (g.select way x y) y = x := by
  have hcases : way % 8 = 0 ∨ way % 8 = 1 ∨ way % 8 = 2 ∨ way % 8 = 3 ∨ way % 8 = 4 ∨ way % 8 = 5 ∨
      way % 8 = 6 ∨ way % 8 = 7 := by omega
  unfold deselect select
  rcases hcases with h | h | h | h | h | h | h | h
  · simp only [h, xor_cancel_both, dehash_hash hx]
  · simp only [h, xor_cancel_middle, iterate_hash_copy hx]
  · simp only [h, xor_cancel_both, dehash_hash hx]
  · simp only [h, xor_cancel_middle, iterate_hash_copy hx]
  · simp only [h, xor_cancel_both, hash_dehash hx]
  · simp only [h, xor_cancel_middle, iterate_hash_dehashed_copy hx]
  · simp only [h, xor_cancel_both, hash_dehash hx]
  · simp only [h, xor_cancel_middle, iterate_hash_dehashed_copy hx]

theorem skew_short (x : BitVec 64) (way : Nat) : g.Short (g.skew x way) :=
  iterate_hash_short (select_short (addr1_short x) (addr2_short x)) _

theorem addr1_or (hset : g.Short y) : g.addr1 ((x <<< (g.msbShift + 1)) ||| y) = y := by
  have hmsb := g.msbShift_add_one
  refine (addr1_short _).ext hset fun i hi => ?_
  rw [addr1, getLsbD_bits, getLsbD_or, getLsbD_shiftLeft, zero_add,
    decide_eq_true (by omega : i < g.msbShift - 0 + 1),
    decide_eq_true (by omega : i < g.msbShift + 1)]
  simp

theorem addr2_or (hset : g.Short y) :
    g.addr2 (((x >>> (g.msbShift + 1)) <<< (g.msbShift + 1)) ||| y) = g.addr2 x := by
  have hmsb := g.msbShift_add_one
  have hn := g.n_le
  refine (addr2_short _).ext (addr2_short _) fun i hi => ?_
  rw [addr2, addr2, getLsbD_bits, getLsbD_bits, getLsbD_or, getLsbD_shiftLeft, hset _ (by omega),
    decide_eq_true (by omega : g.msbShift + 1 + i < 64),
    decide_eq_false (by omega : ¬ g.msbShift + 1 + i < g.msbShift + 1)]
  simp

theorem deskew_skew (x : BitVec 64) (way : Nat) :
    g.deskew (((x >>> (g.msbShift + 1)) <<< (g.msbShift + 1)) ||| g.skew x way) way =
      g.addr1 x := by
  have hpiled : (if 8 ≤ way then g.dehash^[way / 8] (g.skew x way) else g.skew x way) =
      g.select way (g.addr1 x) (g.addr2 x) := by
    split
    · exact iterate_dehash_hash (select_short (addr1_short x) (addr2_short x)) _
    · rename_i hfew
      rw [skew, Nat.div_eq_of_lt (not_le.mp hfew), iterate_zero_apply]
  rw [deskew, addr1_or (skew_short x way), addr2_or (skew_short x way), hpiled,
    deselect_select (addr1_short x)]

theorem and_setMask (hx : g.Short x) : x &&& g.setMask = x := by
  have hn := g.n_le
  refine Short.ext (g := g) (fun i hi => ?_) hx fun i hi => ?_
  · rw [getLsbD_and, hx i hi, Bool.false_and]
  · rw [getLsbD_and, setMask, getLsbD_mask (by omega), decide_eq_true hi, Bool.and_true]

theorem extractSet_setWidth (a : BitVec 64) (way : Nat) :
    (g.extractSet a way).setWidth 64 = g.skew (a >>> g.setShift) way := by
  have hn := g.n_le
  have hshort := skew_short (g := g) (a >>> g.setShift) way
  rw [extractSet, and_setMask hshort]
  refine Short.ext (g := g) (fun i hi => ?_) hshort fun i hi => ?_
  · rw [getLsbD_setWidth, getLsbD_setWidth, hshort i hi]
    simp
  · rw [getLsbD_setWidth, getLsbD_setWidth, decide_eq_true (by omega : i < 64),
      decide_eq_true (by omega : i < 32), Bool.true_and, Bool.true_and]

end Inverse

/-- An address can be put together again from its tag, the way and the set that it has there, and
the skewing of every way can be undone for fixed tag bits. -/
theorem skewed_indexing_invertible (g : SkewedAssociative) (way : Nat) :
    (∀ a : BitVec 64, g.regenerateAddr (a >>> g.tagShift) (g.extractSet a way) way =
        (a >>> g.setShift) <<< g.setShift) ∧
      ∀ x : BitVec 64,
        g.deskew (((x >>> g.n) <<< g.n) ||| g.skew x way) way = bits x (g.n - 1) 0 := by
  have hmsb := g.msbShift_add_one
  refine ⟨fun a => ?_, fun x => ?_⟩
  · have htag : a >>> g.tagShift = (a >>> g.setShift) >>> (g.msbShift + 1) := by
      rw [hmsb, ← shiftRight_add]
      rfl
    rw [regenerateAddr, extractSet_setWidth, htag, deskew_skew, and_setMask (addr1_short _)]
    apply eq_of_getLsbD_eq
    intro i hi
    rw [getLsbD_or, getLsbD_shiftLeft, getLsbD_shiftLeft, getLsbD_ushiftRight, addr1, getLsbD_bits,
      getLsbD_ushiftRight]
    unfold tagShift
    by_cases hoffset : i < g.setShift
    · simp [hoffset, Nat.lt_add_right g.n hoffset]
    · by_cases hset : i < g.setShift + g.n
      · rw [decide_eq_true hset, decide_eq_true (by omega : i - g.setShift < g.msbShift - 0 + 1)]
        simp
      · rw [decide_eq_false hset,
          decide_eq_false (by omega : ¬ i - g.setShift < g.msbShift - 0 + 1),
          show g.setShift + (g.msbShift + 1 + (i - (g.setShift + g.n))) =
            g.setShift + (i - g.setShift) by
            omega]
        simp [hoffset]
  · have hskew := deskew_skew (g := g) x way
    rw [hmsb] at hskew
    exact hskew

/-- Sixteen sets of blocks of 64 bytes. -/
def sixteenSets : SkewedAssociative := ⟨6, 4, by decide, by decide⟩

theorem skewed_indexing_invertible_sixteen_sets : sixteenSets.extractSet 0xABCDE 9 = 6 ∧
    sixteenSets.regenerateAddr 0x2AF 6 9 = 0xABCC0 := by
  have hset : sixteenSets.extractSet 0xABCDE 9 = 6 := by decide +kernel
  have haddr := (skewed_indexing_invertible sixteenSets 9).1 0xABCDE
  rw [hset] at haddr
  exact ⟨hset, haddr⟩

end SkewedAssociative

end Gem5.Mem
