import Gem5.Shared.Sim
import Gem5.Shared.Tiling
import Mathlib.Tactic.Ring

/-!
# Chunk generators

A region is cut into chunks at the multiples of a power of two. Addresses are 64 bits wide
and wrap around. `At` is a generator in a state from which it goes on correctly.
-/

namespace Gem5.Base

open BitVec Nat

def roundUp (val align : BitVec 64) : BitVec 64 :=
  let mask := align - 1
  (val + mask) &&& ~~~mask

structure ChunkGenerator where
  curAddr : BitVec 64
  nextAddr : BitVec 64
  curSize : BitVec 64
  nextSize : BitVec 64
  sizeLeft : BitVec 64
  startAddr : BitVec 64
  chunkSize : BitVec 64
  isFirstOfChunk : Bool
  deriving DecidableEq

namespace ChunkGenerator

def minAddr (a b : BitVec 64) : BitVec 64 := if b < a then b else a

def firstEnd (startAddr totalSize chunkSize : BitVec 64) : BitVec 64 :=
  if chunkSize = 0 then startAddr + totalSize
  else
    let nextAddr := roundUp startAddr chunkSize
    minAddr
      (if startAddr = nextAddr then nextAddr + chunkSize else nextAddr) (startAddr + totalSize)

/-- The constructor; a chunk size other than 0 is a power of two. -/
def new (startAddr totalSize chunkSize : BitVec 64) : ChunkGenerator :=
  let nextAddr := firstEnd startAddr totalSize chunkSize
  let curSize := nextAddr - startAddr
  let sizeLeft := totalSize - curSize
  ⟨startAddr, nextAddr, curSize, minAddr sizeLeft chunkSize, sizeLeft, startAddr, chunkSize, true⟩

def addr (g : ChunkGenerator) : BitVec 64 := g.curAddr

def size (g : ChunkGenerator) : BitVec 64 := g.curSize

def isHead (g : ChunkGenerator) : Bool := g.isFirstOfChunk

def complete (g : ChunkGenerator) : BitVec 64 := g.curAddr - g.startAddr

def done (g : ChunkGenerator) : Bool := g.curSize == 0

def last (g : ChunkGenerator) : Bool := g.sizeLeft == 0

def next (g : ChunkGenerator) : ChunkGenerator :=
  if g.last then { g with curSize := 0 }
  else
    let sizeLeft := g.sizeLeft - g.nextSize
    { g with
      curAddr := g.nextAddr
      curSize := g.nextSize
      sizeLeft := sizeLeft
      nextAddr := g.nextAddr + g.nextSize
      nextSize := minAddr sizeLeft g.chunkSize
      isFirstOfChunk := false }

/-- The current chunk grows up to `next`; the rest of the region is cut anew from there. -/
def grownTo (next : BitVec 64) (g : ChunkGenerator) : ChunkGenerator :=
  let skipping := minAddr (next - g.nextAddr) g.sizeLeft
  let sizeLeft := g.sizeLeft - skipping
  let nextSize := roundUp next g.chunkSize - next
  { g with
    sizeLeft := sizeLeft
    curSize := g.curSize + skipping
    nextAddr := next
    nextSize := if nextSize = 0 then minAddr sizeLeft g.chunkSize else nextSize }

def setNext (next : BitVec 64) (g : ChunkGenerator) : Sim ChunkGenerator := do
  simAssert (decide (g.nextAddr ≤ next))
  simAssert (g.chunkSize != 0)
  pure (g.grownTo next)

variable {g : ChunkGenerator} {line a n : Nat}

theorem minAddr_toNat (a b : BitVec 64) : (minAddr a b).toNat = min a.toNat b.toNat := by
  unfold minAddr
  split <;> bv_omega

theorem inLine_of_dvd (hdvd : line ∣ a) (hle : n ≤ line) (hn : 0 < n) : InLine line a n := by
  obtain ⟨m, rfl⟩ := hdvd
  have hline : 0 < line := by omega
  have hlast : line * m + n - 1 = line * m + (n - 1) := by omega
  rw [InLine, hlast, Nat.mul_div_cancel_left m hline, mul_add_div hline,
    div_eq_of_lt (by omega), add_zero]

section Start

variable {start total : BitVec 64} {bits : Nat}

theorem chunk_toNat (hbits : bits < 64) : (BitVec.twoPow 64 bits).toNat = 2 ^ bits := by
  rw [toNat_twoPow, mod_eq_of_lt (Nat.pow_lt_pow_right (by decide) hbits)]

theorem chunk_ne_zero (hbits : bits < 64) : BitVec.twoPow 64 bits ≠ 0 := by
  intro hzero
  have hchunk := chunk_toNat hbits
  rw [hzero] at hchunk
  exact absurd hchunk (Nat.ne_of_lt (Nat.two_pow_pos bits))

theorem mask_toNat (hbits : bits < 64) : (BitVec.twoPow 64 bits - 1).toNat = 2 ^ bits - 1 := by
  have hchunk := chunk_toNat hbits
  have hpos : 0 < 2 ^ bits := Nat.two_pow_pos bits
  rw [toNat_sub_of_le, hchunk]
  · rfl
  · rw [le_def, hchunk]
    exact hpos

theorem and_not_mask_toNat (x : BitVec 64) (hbits : bits < 64) :
    (x &&& ~~~(BitVec.twoPow 64 bits - 1)).toNat = x.toNat / 2 ^ bits * 2 ^ bits := by
  have hshift : x &&& ~~~(BitVec.twoPow 64 bits - 1) = (x >>> bits) <<< bits := by
    apply eq_of_getLsbD_eq
    intro i hi
    have hmask : (BitVec.twoPow 64 bits - 1).getLsbD i = decide (i < bits) := by
      rw [← testBit_toNat, mask_toNat hbits, testBit_two_pow_sub_one]
    simp only [getLsbD_and, getLsbD_not, hmask, getLsbD_shiftLeft,
      getLsbD_ushiftRight, hi, decide_true, Bool.true_and]
    by_cases hlt : i < bits
    · simp [hlt]
    · have hsum : bits + (i - bits) = i := by omega
      simp [hlt, hsum]
  have hle : x.toNat / 2 ^ bits * 2 ^ bits ≤ x.toNat := div_mul_le_self _ _
  rw [hshift, toNat_shiftLeft, toNat_ushiftRight, Nat.shiftLeft_eq, shiftRight_eq_div_pow]
  exact mod_eq_of_lt (by omega)

def lineEnd (line a : Nat) : Nat := (a / line + 1) * line

theorem lt_lineEnd (hline : 0 < line) : a < lineEnd line a := by
  rw [lineEnd, Nat.add_mul]
  have hmod := mod_lt a hline
  have hdiv := div_add_mod' a line
  omega

theorem roundUp_toNat (hbits : bits < 64) : (roundUp start (BitVec.twoPow 64 bits)).toNat =
    ((start.toNat + (2 ^ bits - 1)) % 2 ^ 64) / 2 ^ bits * 2 ^ bits := by
  rw [roundUp, and_not_mask_toNat _ hbits, toNat_add, mask_toNat hbits]

theorem lineEnd_le (start : BitVec 64) (hbits : bits < 64) :
    lineEnd (2 ^ bits) start.toNat ≤ 2 ^ 64 := by
  obtain ⟨c, hc⟩ : 2 ^ bits ∣ 2 ^ 64 := Nat.pow_dvd_pow 2 (by omega)
  have hlt := start.isLt
  rw [lineEnd, hc, mul_comm]
  apply Nat.mul_le_mul_left
  rw [hc] at hlt
  exact Nat.div_lt_of_lt_mul hlt

theorem roundUp_of_dvd (hbits : bits < 64) (hdvd : 2 ^ bits ∣ start.toNat) :
    roundUp start (BitVec.twoPow 64 bits) = start := by
  have hend := lineEnd_le start hbits
  have hpos : 0 < 2 ^ bits := Nat.two_pow_pos bits
  obtain ⟨q, hq⟩ := hdvd
  apply eq_of_toNat_eq
  rw [lineEnd, hq, Nat.mul_div_cancel_left q hpos, Nat.add_mul, mul_comm q] at hend
  rw [roundUp_toNat hbits, hq, mod_eq_of_lt (by omega), mul_add_div hpos,
    div_eq_of_lt (by omega), add_zero, mul_comm]

theorem roundUp_of_not_dvd (hbits : bits < 64) (hdvd : ¬2 ^ bits ∣ start.toNat) :
    (roundUp start (BitVec.twoPow 64 bits)).toNat = lineEnd (2 ^ bits) start.toNat % 2 ^ 64 := by
  have hend := lineEnd_le start hbits
  have hpos : 0 < 2 ^ bits := Nat.two_pow_pos bits
  have hdiv := div_add_mod' start.toNat (2 ^ bits)
  have hsum : start.toNat + (2 ^ bits - 1) =
      lineEnd (2 ^ bits) start.toNat + (start.toNat % 2 ^ bits - 1) := by
    rw [lineEnd, Nat.add_mul]
    omega
  rw [roundUp_toNat hbits, hsum]
  rcases Nat.lt_or_ge (lineEnd (2 ^ bits) start.toNat) (2 ^ 64) with hin | hout
  · -- the next line is whole
    have hroom : lineEnd (2 ^ bits) start.toNat + 2 ^ bits ≤ 2 ^ 64 := by
      obtain ⟨c, hc⟩ : 2 ^ bits ∣ 2 ^ 64 := Nat.pow_dvd_pow 2 (by omega)
      rw [lineEnd, hc, mul_comm] at hin ⊢
      exact Nat.mul_le_mul_left _ (Nat.lt_of_mul_lt_mul_left hin)
    rw [mod_eq_of_lt (by omega), mod_eq_of_lt hin, lineEnd, add_comm (_ * _),
      add_mul_div_right _ _ hpos, div_eq_of_lt (by omega), zero_add]
  · have htop : lineEnd (2 ^ bits) start.toNat = 2 ^ 64 := by omega
    rw [htop, mod_self,
      div_eq_of_lt (by omega), Nat.zero_mul]

theorem roundUp_sub_of_not_dvd (hbits : bits < 64) (hdvd : ¬2 ^ bits ∣ start.toNat) :
    (roundUp start (BitVec.twoPow 64 bits) - start).toNat =
      lineEnd (2 ^ bits) start.toNat - start.toNat := by
  have hround := roundUp_of_not_dvd hbits hdvd
  have hend := lineEnd_le start hbits
  have hpos : start.toNat < lineEnd (2 ^ bits) start.toNat := lt_lineEnd (Nat.two_pow_pos bits)
  have hzero : start.toNat ≠ 0 := fun h => hdvd (h ▸ Nat.dvd_zero _)
  rw [toNat_sub]
  omega

theorem nextLine_toNat (hbits : bits < 64) :
    (if start = roundUp start (BitVec.twoPow 64 bits) then
        roundUp start (BitVec.twoPow 64 bits) + BitVec.twoPow 64 bits
      else roundUp start (BitVec.twoPow 64 bits)).toNat =
        lineEnd (2 ^ bits) start.toNat % 2 ^ 64 := by
  by_cases hdvd : 2 ^ bits ∣ start.toNat
  · rw [if_pos (roundUp_of_dvd hbits hdvd).symm, roundUp_of_dvd hbits hdvd, toNat_add,
      chunk_toNat hbits, lineEnd, Nat.add_mul, Nat.one_mul,
      Nat.div_mul_cancel hdvd]
  · have hdiff : start ≠ roundUp start (BitVec.twoPow 64 bits) := by
      intro hsame
      apply hdvd
      rw [hsame, roundUp_toNat hbits]
      exact Nat.dvd_mul_left _ _
    rw [if_neg hdiff, roundUp_of_not_dvd hbits hdvd]

def firstSize (line start total : Nat) : Nat := min (lineEnd line start) (start + total) - start

theorem new_fields (hbits : bits < 64) (hinside : start.toNat + total.toNat ≤ 2 ^ 64)
    (hlast : 2 ^ 64 ≤ lineEnd (2 ^ bits) start.toNat ↔ start.toNat + total.toNat = 2 ^ 64) :
    (new start total (BitVec.twoPow 64 bits)).chunkSize.toNat = 2 ^ bits ∧
    (new start total (BitVec.twoPow 64 bits)).curSize.toNat =
      firstSize (2 ^ bits) start.toNat total.toNat ∧
    (new start total (BitVec.twoPow 64 bits)).sizeLeft.toNat =
      total.toNat - firstSize (2 ^ bits) start.toNat total.toNat ∧
    (new start total (BitVec.twoPow 64 bits)).nextAddr.toNat =
      (start.toNat + firstSize (2 ^ bits) start.toNat total.toNat) % 2 ^ 64 ∧
    (new start total (BitVec.twoPow 64 bits)).nextSize.toNat =
      min (total.toNat - firstSize (2 ^ bits) start.toNat total.toNat) (2 ^ bits) := by
  have hpos : 0 < 2 ^ bits := Nat.two_pow_pos bits
  have hchunk := chunk_toNat hbits
  have hstart : start.toNat < lineEnd (2 ^ bits) start.toNat := lt_lineEnd hpos
  have hfirst : (firstEnd start total (BitVec.twoPow 64 bits)).toNat =
      min (lineEnd (2 ^ bits) start.toNat) (start.toNat + total.toNat) % 2 ^ 64 := by
    rw [firstEnd, if_neg (chunk_ne_zero hbits)]
    rw [minAddr_toNat, nextLine_toNat hbits, toNat_add]
    omega
  have hsize : (firstEnd start total (BitVec.twoPow 64 bits) - start).toNat =
      firstSize (2 ^ bits) start.toNat total.toNat := by
    unfold firstSize
    bv_omega
  have hleft : (total - (firstEnd start total (BitVec.twoPow 64 bits) - start)).toNat =
      total.toNat - firstSize (2 ^ bits) start.toNat total.toNat := by
    bv_omega
  refine ⟨hchunk, hsize, hleft, ?_, ?_⟩
  · change (firstEnd start total (BitVec.twoPow 64 bits)).toNat = _
    rw [firstSize]
    omega
  · change (minAddr _ _).toNat = _
    rw [minAddr_toNat, hleft, hchunk]

theorem firstSize_inLine {start total : Nat} (hline : 0 < line) (htotal : 0 < total) :
    InLine line start (firstSize line start total) := by
  have hstart : start < lineEnd line start := lt_lineEnd hline
  have hdiv := div_mul_le_self start line
  have hq : lineEnd line start = start / line * line + line := by
    rw [lineEnd, Nat.add_mul, Nat.one_mul]
  unfold InLine firstSize
  symm
  apply Nat.div_eq_of_lt_le
  · omega
  · rw [Nat.add_mul]
    omega

theorem dvd_firstSize {start total : Nat} (hline : 0 < line)
    (h : firstSize line start total < total) : line ∣ start + firstSize line start total := by
  have hstart : start < lineEnd line start := lt_lineEnd hline
  have hsum : start + firstSize line start total = lineEnd line start := by
    unfold firstSize at h ⊢
    omega
  rw [hsum]
  exact Nat.dvd_mul_left _ _

theorem firstSize_pos {start total : Nat} (hline : 0 < line) (htotal : 0 < total) :
    0 < firstSize line start total := by
  have hstart : start < lineEnd line start := lt_lineEnd hline
  unfold firstSize
  omega

theorem firstSize_le (line start total : Nat) : firstSize line start total ≤ total := by
  unfold firstSize
  omega

theorem setNext_fields {next : BitVec 64} (hbits : bits < 64)
    (hchunk : g.chunkSize = BitVec.twoPow 64 bits)
    (hle : g.nextAddr ≤ next) (hin : next.toNat ≤ g.nextAddr.toNat + g.sizeLeft.toNat)
    (hspace : g.curSize.toNat + g.sizeLeft.toNat < 2 ^ 64) : g.setNext next = .ok (g.grownTo next) ∧
      (g.grownTo next).curSize.toNat = g.curSize.toNat + (next.toNat - g.nextAddr.toNat) ∧
      (g.grownTo next).sizeLeft.toNat = g.sizeLeft.toNat - (next.toNat - g.nextAddr.toNat) ∧
      (g.grownTo next).nextSize.toNat =
        if 2 ^ bits ∣ next.toNat then min (g.grownTo next).sizeLeft.toNat (2 ^ bits)
        else lineEnd (2 ^ bits) next.toNat - next.toNat := by
  have hskip : (minAddr (next - g.nextAddr) g.sizeLeft).toNat = next.toNat - g.nextAddr.toNat := by
    rw [minAddr_toNat, toNat_sub_of_le hle]
    omega
  have hleft : (g.sizeLeft - minAddr (next - g.nextAddr) g.sizeLeft).toNat =
      g.sizeLeft.toNat - (next.toNat - g.nextAddr.toNat) := by
    rw [toNat_sub_of_le (by rw [le_def, hskip]; omega), hskip]
  refine ⟨?_, ?_, hleft, ?_⟩
  · rw [setNext, simAssert_of (decide_eq_true hle),
      simAssert_of (bne_iff_ne.mpr (hchunk ▸ chunk_ne_zero hbits))]
    rfl
  · change (g.curSize + minAddr (next - g.nextAddr) g.sizeLeft).toNat = _
    rw [toNat_add, hskip, mod_eq_of_lt (by omega)]
  · unfold grownTo
    dsimp only
    rw [hchunk]
    by_cases hdvd : 2 ^ bits ∣ next.toNat
    · have hzero : roundUp next (BitVec.twoPow 64 bits) - next = 0 := by
        rw [roundUp_of_dvd hbits hdvd, BitVec.sub_self]
        rfl
      rw [if_pos hdvd, if_pos hzero, minAddr_toNat, chunk_toNat hbits]
    · have hgap := roundUp_sub_of_not_dvd hbits hdvd
      have hpos : next.toNat < lineEnd (2 ^ bits) next.toNat := lt_lineEnd (Nat.two_pow_pos bits)
      have hne : roundUp next (BitVec.twoPow 64 bits) - next ≠ 0 := by
        intro hzero
        rw [hzero] at hgap
        change 0 = _ at hgap
        omega
      rw [if_neg hdvd, if_neg hne, hgap]

end Start

end ChunkGenerator

end Gem5.Base
