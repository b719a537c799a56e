import Gem5.Base.Bitfield
import Gem5.Mem.SectorTags
import Mathlib.Algebra.Order.BigOperators.Group.Finset
import Mathlib.Data.Fintype.Fin
import Mathlib.Algebra.Order.Ring.Nat

/-!
# Compressed superblocks

The blocks of a superblock share the space of one line. The first block to come sets the
compression factor, and a later block is let in while there are fewer blocks than the factor and
its size is at most the line divided by it.
-/

open List Nat
open Finset hiding mem_cons mem_singleton_self

namespace Gem5.Mem

/-- What a compressed block adds to a block of a sector. -/
structure CompressionBlk where
  size : Nat
  compressed : Bool

/-- A superblock of `n` blocks. The factor is an 8-bit number. -/
structure SuperBlk (n : Nat) extends SectorBlk n where
  packed : Fin n → CompressionBlk
  compressionFactor : BitVec 8

namespace SuperBlk

variable {n : Nat}

def getNumValid (s : SuperBlk n) : Nat := s.validCounter.toNat

def isCompressed (s : SuperBlk n) (ignoredBlk : Option (Fin n)) : Bool :=
  match (List.finRange n).find? fun k => (s.blks k).valid && some k != ignoredBlk with
  | some k => (s.packed k).compressed
  | none => true

def canCoAllocate (blkSize : Nat) (s : SuperBlk n) (compressedSize : Nat) : Bool :=
  decide (s.getNumValid < s.compressionFactor.toNat) &&
    decide (compressedSize ≤ blkSize * 8 / s.compressionFactor.toNat)

def calculateCompressionFactor (n blkSize size : Nat) : BitVec 8 :=
  let blkSizeBits := 8 * blkSize
  let compressionFactor :=
    if blkSizeBits < size then 1
    else if size = 0 then blkSizeBits
    else (Base.alignToPowerOfTwo (BitVec.ofNat 64 (blkSizeBits / size))).toNat
  BitVec.ofNat 8 (min compressionFactor n)

def setCompressionFactor (s : SuperBlk n) (compressionFactor : BitVec 8) : SuperBlk n :=
  if s.getNumValid ≤ 1 then { s with compressionFactor := compressionFactor } else s

def setPacked (s : SuperBlk n) (k : Fin n) (b : CompressionBlk) : SuperBlk n :=
  { s with packed := Function.update s.packed k b }

/-- `CompressionBlk::setSizeBits` of block `k`. -/
def setSizeBits (blkSize : Nat) (s : SuperBlk n) (k : Fin n) (size : Nat) : Sim (SuperBlk n) := do
  let s := s.setPacked k ⟨size, (s.packed k).compressed⟩
  let compressionFactor := calculateCompressionFactor n blkSize size
  let s := s.setCompressionFactor compressionFactor
  simAssert (decide (1 ≤ s.getNumValid))
  let compressed :=
    if s.getNumValid = 1 then compressionFactor != 1 else s.isCompressed (some k)
  pure (s.setPacked k ⟨(s.packed k).size, compressed⟩)

def insert (s : SuperBlk n) (k : Fin n) (tag : BitVec 64) (isSecure : Bool) : Sim (SuperBlk n) := do
  let sector ← s.insertSub k tag isSecure
  pure { s with toSectorBlk := sector }

/-- `CompressionBlk::invalidate`: with its last block the superblock becomes invalid. -/
def invalidate (s : SuperBlk n) (k : Fin n) : SuperBlk n :=
  let sector := s.invalidateSub k
  ⟨sector, Function.update s.packed k ⟨(s.packed k).size, false⟩,
    if sector.isValid then s.compressionFactor else 1⟩

/-- The blocks that `findVictim` lists are invalidated one after the other. -/
def evict (s : SuperBlk n) : SuperBlk n :=
  ((List.finRange n).filter fun k => (s.blks k).valid).foldl invalidate s

end SuperBlk

/-- The superblocks of a cache, each block of `blkSize` bytes. The indexing policy names the
possible entries of an address. -/
structure CompressedTags (ι : Type) (n : Nat) where
  blkSize : Nat
  /-- The size is an `unsigned` number. -/
  blkSize_lt : blkSize < 2 ^ 32
  entries : BitVec 64 → List ι
  extractTag : BitVec 64 → BitVec 64
  extractSectorOffset : BitVec 64 → Fin n

namespace CompressedTags

variable {ι : Type} [DecidableEq ι] {n : Nat} (cfg : CompressedTags ι n)

def coAllocation (s : ι → SuperBlk n) (addr : BitVec 64) (isSecure : Bool) (size : Nat) :
    Option ι :=
  (cfg.entries addr).find? fun i => (s i).matchTag (cfg.extractTag addr) isSecure &&
    !((s i).blks (cfg.extractSectorOffset addr)).valid && (s i).isCompressed none &&
    (s i).canCoAllocate cfg.blkSize size

def findVictim (s : ι → SuperBlk n) (addr : BitVec 64) (isSecure : Bool) (size : Nat) (victim : ι) :
    ι × (ι → SuperBlk n) :=
  match cfg.coAllocation s addr isSecure size with
  | some i => (i, s)
  | none => (victim, Function.update s victim (s victim).evict)

inductive Act (ι : Type) (n : Nat) where
  /-- `findVictim`, the eviction, `insertBlock` and `setSizeBits`; the policy chooses `victim`. -/
  | allocate (addr : BitVec 64) (isSecure : Bool) (size : Nat) (victim : ι)
  | invalidate (i : ι) (k : Fin n)

def step (s : ι → SuperBlk n) : Act ι n → Sim (ι → SuperBlk n)
  | .allocate addr isSecure size victim => do
    let (i, s) := cfg.findVictim s addr isSecure size victim
    let k := cfg.extractSectorOffset addr
    let b ← (s i).insert k (cfg.extractTag addr) isSecure
    let b ← b.setSizeBits cfg.blkSize k size
    pure (Function.update s i b)
  | .invalidate i k => do
    simAssert ((s i).blks k).valid
    pure (Function.update s i ((s i).invalidate k))

def init (_ : ι) : SuperBlk n :=
  ⟨⟨0, maxTag, false, fun _ => ⟨false, maxTag, false⟩⟩, fun _ => ⟨0, false⟩, 1⟩

def Act.Meant : Act ι n → Prop
  | .allocate addr _ size victim => size ≤ cfg.blkSize * 8 ∧ victim ∈ cfg.entries addr
  | .invalidate _ _ => True

def Divides (blkSize n size : Nat) : Prop :=
  size = 0 ∨ n ≤ blkSize * 8 / size ∨ ∃ e, blkSize * 8 / size = 2 ^ e

def Act.Opens (s : ι → SuperBlk n) : Act ι n → Prop
  | .allocate addr isSecure size _ =>
    cfg.coAllocation s addr isSecure size = none → Divides cfg.blkSize n size
  | .invalidate _ _ => True

end CompressedTags

structure SuperBlk.Fits {n : Nat} (blkSize : Nat) (s : SuperBlk n) : Prop where
  total : (∑ k ∈ s.validBlks, (s.packed k).size) ≤ blkSize * 8
  each : 1 < s.compressionFactor.toNat → ∀ k ∈ s.validBlks,
    (s.packed k).size ≤ blkSize * 8 / s.compressionFactor.toNat

namespace SuperBlk

variable {n blkSize : Nat} {s t : SuperBlk n} {k : Fin n}

structure Shared (blkSize : Nat) (s : SuperBlk n) : Prop where
  counter : s.validCounter.toNat = s.validBlks.card
  few : s.validBlks.card ≤ max 1 s.compressionFactor.toNat
  size : ∀ k ∈ s.validBlks, (s.packed k).size ≤ blkSize * 8 / max 1 s.compressionFactor.toNat

theorem Shared.fits (h : s.Shared blkSize) : s.Fits blkSize := by
  refine ⟨?_, fun hcf k hk => ?_⟩
  · calc
      (∑ k ∈ s.validBlks, (s.packed k).size)
        ≤ s.validBlks.card * (blkSize * 8 / max 1 s.compressionFactor.toNat) :=
          sum_le_card_nsmul _ _ _ h.size
      _ ≤ max 1 s.compressionFactor.toNat * (blkSize * 8 / max 1 s.compressionFactor.toNat) :=
          Nat.mul_le_mul_right _ h.few
      _ ≤ blkSize * 8 := mul_div_le _ _
  · have hsize := h.size k hk
    rwa [Nat.max_eq_right (le_of_lt hcf)] at hsize

theorem shared_of_empty (hcount : s.validCounter.toNat = s.validBlks.card)
    (h : s.validBlks = ∅) : s.Shared blkSize := by
  refine ⟨hcount, ?_, fun k hk => ?_⟩
  · rw [h]
    exact zero_le _
  · rw [h] at hk
    exact absurd hk (notMem_empty k)

theorem size_invalidate (j : Fin n) : ((s.invalidate k).packed j).size = (s.packed j).size := by
  simp only [SuperBlk.invalidate, Function.update_apply]
  split
  · rename_i hj
    rw [hj]
  · rfl

theorem Shared.invalidate (h : s.Shared blkSize) (hk : (s.blks k).valid = true) :
    (s.invalidate k).Shared blkSize := by
  have hcount := SectorBlk.counter_invalidateSub hk h.counter
  have hsub : (s.invalidate k).validBlks ⊆ s.validBlks :=
    SectorBlk.validBlks_invalidateSub.trans_subset (erase_subset _ _)
  by_cases hv : (s.invalidateSub k).isValid = true
  · have hcf : (s.invalidate k).compressionFactor = s.compressionFactor := if_pos hv
    refine ⟨hcount, ?_, fun j hj => ?_⟩
    · rw [hcf]
      exact (card_le_card hsub).trans h.few
    · rw [hcf, size_invalidate]
      exact h.size j (hsub hj)
  · rw [SectorBlk.isValid_iff hcount, not_nonempty_iff_eq_empty] at hv
    exact shared_of_empty hcount hv

theorem counter_evict (hcount : s.validCounter.toNat = s.validBlks.card) :
    s.evict.validCounter.toNat = s.evict.validBlks.card ∧ s.evict.validBlks = ∅ := by
  have hfold : ∀ (ks : List (Fin n)) (t : SuperBlk n), ks.Nodup →
      (∀ k, k ∈ t.validBlks ↔ k ∈ ks) → t.validCounter.toNat = t.validBlks.card →
      (ks.foldl SuperBlk.invalidate t).validCounter.toNat =
        (ks.foldl SuperBlk.invalidate t).validBlks.card ∧
      (ks.foldl SuperBlk.invalidate t).validBlks = ∅ := by
    intro ks
    induction ks with
    | nil =>
      intro t _ h hcount
      exact ⟨hcount, eq_empty_of_forall_notMem fun k hk => not_mem_nil ((h k).mp hk)⟩
    | cons j ks ih =>
      intro t hnodup h hcount
      have hj := SectorBlk.mem_validBlks.mp ((h j).mpr mem_cons_self)
      refine ih (t.invalidate j) hnodup.of_cons (fun k => ?_)
        (SectorBlk.counter_invalidateSub hj hcount)
      change k ∈ (t.invalidateSub j).validBlks ↔ _
      rw [SectorBlk.validBlks_invalidateSub, mem_erase, h k, mem_cons]
      have hnot := (nodup_cons.mp hnodup).1
      grind
  refine hfold _ s ((nodup_finRange n).filter _) (fun k => ?_) hcount
  rw [SectorBlk.mem_validBlks, List.mem_filter]
  exact (and_iff_right (mem_finRange k)).symm

theorem mul_calculateCompressionFactor {size : Nat} (hline : blkSize * 8 < 2 ^ 64)
    (hsize : size ≤ blkSize * 8) (h : CompressedTags.Divides blkSize n size) :
    size * (calculateCompressionFactor n blkSize size).toNat ≤ blkSize * 8 := by
  rcases Nat.eq_zero_or_pos size with rfl | hpos
  · rw [Nat.zero_mul]
    exact zero_le _
  have hdiv := mul_div_le (blkSize * 8) size
  have hquot : (calculateCompressionFactor n blkSize size).toNat ≤ blkSize * 8 / size := by
    rw [calculateCompressionFactor, BitVec.toNat_ofNat, if_neg (by omega), if_neg (by omega)]
    refine (mod_le _ _).trans ?_
    rcases h with hzero | hcount | ⟨e, he⟩
    · omega
    · exact (Nat.min_le_right _ _).trans hcount
    · refine (Nat.min_le_left _ _).trans ?_
      have hlt : blkSize * 8 / size < 2 ^ 64 := lt_of_le_of_lt (Nat.div_le_self _ _) hline
      have hexp : e < 64 := by
        rw [he] at hlt
        exact (Nat.pow_lt_pow_iff_right (by omega)).mp hlt
      rw [mul_comm 8, he, Base.alignToPowerOfTwo_twoPow ⟨e, hexp⟩, BitVec.toNat_ofNat]
      exact mod_le _ _
  exact (Nat.mul_le_mul_left size hquot).trans hdiv

theorem insert_spec {tag : BitVec 64} {isSecure : Bool} (h : s.insert k tag isSecure = .ok t) :
    ∃ sector, s.insertSub k tag isSecure = .ok sector ∧ t = { s with toSectorBlk := sector } := by
  obtain ⟨sector, hsector, rfl⟩ := map_eq_ok.mp h
  exact ⟨sector, hsector, rfl⟩

theorem setCompressionFactor_fields {cf : BitVec 8} :
    (s.setCompressionFactor cf).toSectorBlk = s.toSectorBlk ∧
      (s.setCompressionFactor cf).packed = s.packed ∧
      (s.setCompressionFactor cf).compressionFactor =
        if s.getNumValid ≤ 1 then cf else s.compressionFactor := by
  rw [setCompressionFactor]
  split <;> exact ⟨rfl, rfl, rfl⟩

theorem setSizeBits_spec {size : Nat} (h : s.setSizeBits blkSize k size = .ok t) :
    t.toSectorBlk = s.toSectorBlk ∧
      (∀ j, (t.packed j).size = if j = k then size else (s.packed j).size) ∧
      t.compressionFactor = if s.getNumValid ≤ 1 then calculateCompressionFactor n blkSize size
        else s.compressionFactor := by
  obtain ⟨_, _, rfl⟩ := map_eq_ok.mp h
  refine ⟨setCompressionFactor_fields.1, fun j => ?_, setCompressionFactor_fields.2.2⟩
  simp only [setPacked, setCompressionFactor_fields.2.1, Function.update_apply]
  split <;> rfl

section Allocate

variable {u : SuperBlk n} {tag : BitVec 64} {isSecure : Bool} {size : Nat}
  (hinsert : s.insert k tag isSecure = .ok t) (hset : t.setSizeBits blkSize k size = .ok u)

include hinsert hset in
/-- The block comes into an empty superblock and sets its factor. -/
theorem shared_of_opening (hcount : s.validCounter.toNat = s.validBlks.card)
    (hempty : s.validBlks = ∅) (hline : blkSize * 8 < 2 ^ 64) (hsize : size ≤ blkSize * 8)
    (h : CompressedTags.Divides blkSize n size) : u.Shared blkSize := by
  obtain ⟨sector, hsector, rfl⟩ := insert_spec hinsert
  obtain ⟨_, hvalid, _⟩ := SectorBlk.insertSub_spec hsector
  obtain ⟨hkept, hpacked, hcf⟩ := setSizeBits_spec hset
  have hone : sector.validBlks.card = 1 := by
    rw [hvalid, hempty, card_insert_of_notMem (notMem_empty k), card_empty]
  have hcounter := (SectorBlk.counter_insertSub hsector hcount (by omega)).1
  rw [if_pos (by rw [getNumValid, hcounter, hone])] at hcf
  refine ⟨?_, ?_, fun j hj => ?_⟩
  · rw [hkept]
    exact hcounter
  · rw [hkept, hone]
    exact Nat.le_max_left _ _
  · rw [hkept, hvalid, hempty, mem_insert] at hj
    obtain rfl := hj.resolve_right (notMem_empty j)
    have hmul := mul_calculateCompressionFactor hline hsize h
    rw [hpacked, if_pos rfl, hcf,
      Nat.le_div_iff_mul_le (lt_of_lt_of_le Nat.one_pos (Nat.le_max_left _ _))]
    rcases Nat.le_total 1 (calculateCompressionFactor n blkSize size).toNat with hle | hle
    · rwa [Nat.max_eq_right hle]
    · rwa [Nat.max_eq_left hle, Nat.mul_one]

include hinsert hset in
/-- The block joins others and leaves the factor. -/
theorem Shared.coAllocated (h : s.Shared blkSize) (hvalid : s.isValid = true)
    (hco : s.canCoAllocate blkSize size = true) : u.Shared blkSize := by
  rw [canCoAllocate, Bool.and_eq_true, decide_eq_true_iff, decide_eq_true_iff, getNumValid,
    h.counter] at hco
  rw [SectorBlk.isValid_iff h.counter, ← card_pos] at hvalid
  obtain ⟨hroom, hfit⟩ := hco
  obtain ⟨sector, hsector, rfl⟩ := insert_spec hinsert
  obtain ⟨_, hinserted, _⟩ := SectorBlk.insertSub_spec hsector
  obtain ⟨hkept, hpacked, hcf⟩ := setSizeBits_spec hset
  have hbound := s.compressionFactor.isLt
  have hle : sector.validBlks.card ≤ s.validBlks.card + 1 := hinserted ▸ card_insert_le _ _
  obtain ⟨hcounter, hcard⟩ := SectorBlk.counter_insertSub hsector h.counter (by omega)
  rw [if_neg (by rw [getNumValid, hcounter]; omega)] at hcf
  have hmax : max 1 s.compressionFactor.toNat = s.compressionFactor.toNat :=
    Nat.max_eq_right (by omega)
  refine ⟨?_, ?_, fun j hj => ?_⟩
  · rw [hkept]
    exact hcounter
  · rw [hkept, hcard, hcf, hmax]
    exact hroom
  · rw [hkept, hinserted, mem_insert] at hj
    rw [hpacked, hcf]
    split
    · rw [hmax]
      exact hfit
    · rename_i hjk
      exact h.size j (hj.resolve_left hjk)

end Allocate

end SuperBlk

namespace CompressedTags

variable {ι : Type} [DecidableEq ι] {n : Nat} {cfg : CompressedTags ι n} {s t : ι → SuperBlk n}

theorem shared_update {i : ι} {b : SuperBlk n} (h : ∀ j, (s j).Shared cfg.blkSize)
    (hb : b.Shared cfg.blkSize) (j : ι) : (Function.update s i b j).Shared cfg.blkSize := by
  by_cases hj : j = i
  · subst hj
    rw [Function.update_self]
    exact hb
  · rw [Function.update_of_ne hj]
    exact h j

theorem shared_step {a : Act ι n} (h : ∀ j, (s j).Shared cfg.blkSize) (hmeant : a.Meant cfg)
    (hopens : a.Opens cfg s) (hstep : cfg.step s a = .ok t) (j : ι) : (t j).Shared cfg.blkSize := by
  cases a with
  | invalidate i k =>
    obtain ⟨_, hvalid, rfl⟩ := map_eq_ok.mp hstep
    exact shared_update h ((h i).invalidate (simAssert_eq_ok.mp hvalid)) j
  | allocate addr isSecure size victim =>
    simp only [step, findVictim] at hstep
    cases hco : cfg.coAllocation s addr isSecure size with
    | some i =>
      simp only [hco] at hstep
      obtain ⟨b₁, hinsert, hstep⟩ := bind_eq_ok.mp hstep
      obtain ⟨b₂, hset, rfl⟩ := map_eq_ok.mp hstep
      have hfound := List.find?_some hco
      simp only [Bool.and_eq_true, SectorBlk.matchTag] at hfound
      exact shared_update h ((h i).coAllocated hinsert hset hfound.1.1.1.1.1 hfound.2) j
    | none =>
      simp only [hco] at hstep
      obtain ⟨b₁, hinsert, hstep⟩ := bind_eq_ok.mp hstep
      obtain ⟨b₂, hset, rfl⟩ := map_eq_ok.mp hstep
      rw [Function.update_self] at hinsert
      have hline : cfg.blkSize * 8 < 2 ^ 64 := by
        have hlt := cfg.blkSize_lt
        omega
      obtain ⟨hcount, hempty⟩ := SuperBlk.counter_evict (h victim).counter
      have hevicted : ∀ j, (Function.update s victim (s victim).evict j).Shared cfg.blkSize :=
        shared_update h (SuperBlk.shared_of_empty hcount hempty)
      exact shared_update hevicted
        (SuperBlk.shared_of_opening hinsert hset hcount hempty hline hmeant.1 (hopens hco)) j

/-- In every run in which a block that opens a superblock has a size that divides the line, the
blocks of each superblock fit. -/
theorem superblock_fits {ι : Type} [DecidableEq ι] {n : Nat} (cfg : CompressedTags ι n)
    {s : ι → SuperBlk n}
    (hr : Reach cfg.step (fun s a => a.Meant cfg ∧ a.Opens cfg s) init s) (i : ι) :
    (s i).Fits cfg.blkSize := by
  have hshared : ∀ i, (s i).Shared cfg.blkSize := by
    refine hr.invariant (P := fun s => ∀ i, (s i).Shared cfg.blkSize) (fun i => ?_)
      (fun h ha hstep => shared_step h ha.1 ha.2 hstep)
    have hempty : (init i : SuperBlk n).validBlks = ∅ := by
      simp [SectorBlk.validBlks, init]
    exact SuperBlk.shared_of_empty (by rw [hempty]; rfl) hempty
  exact (hshared i).fits

/-- One superblock of four blocks of 64 bytes. -/
def oneLine : CompressedTags Unit 4 where
  blkSize := 64
  blkSize_lt := by decide
  entries := fun _ => [()]
  extractTag := fun addr => addr >>> 8
  extractSectorOffset := fun addr => ⟨(addr.toNat / 64) % 4, Nat.mod_lt _ (by decide)⟩

def fill (addr : BitVec 64) (size : Nat) : Act Unit 4 := .allocate addr false size ()

theorem superblock_fits_quarters : ∃ s : Unit → SuperBlk 4,
    (∀ i, (s i).Fits oneLine.blkSize) ∧ (s ()).validBlks.card = 3 := by
  obtain ⟨s, hr, hcard⟩ := Reach.exists_of_runFrom_all oneLine.step (fun _ _ => True) init
    (fun s a => a.Meant oneLine ∧ a.Opens oneLine s) [fill 0 128, fill 64 128, fill 128 0] (by
      intro a ha s _
      have hquarter : Divides 64 4 128 := .inr (.inr ⟨2, rfl⟩)
      simp only [mem_cons, not_mem_nil, or_false] at ha
      rcases ha with rfl | rfl | rfl
      · exact ⟨⟨by decide, mem_singleton_self _⟩, fun _ => hquarter⟩
      · exact ⟨⟨by decide, mem_singleton_self _⟩, fun _ => hquarter⟩
      · exact ⟨⟨by decide, mem_singleton_self _⟩, fun _ => .inl rfl⟩)
    (fun s => (s ()).validBlks.card = 3) (by decide +kernel)
  exact ⟨s, superblock_fits oneLine hr, hcard⟩

/-- A block of a third of the line gets the factor four, and three quarters come after it. -/
theorem third_and_three_quarters : ∃ s : Unit → SuperBlk 4,
    Reach oneLine.step (fun _ a => a.Meant oneLine) init s ∧ ¬(s ()).Fits oneLine.blkSize := by
  obtain ⟨s, hr, hsum⟩ := Reach.exists_of_runFrom_all oneLine.step (fun _ _ => True) init
    (fun _ a => a.Meant oneLine) [fill 0 170, fill 64 128, fill 128 128, fill 192 128] (by
      intro a ha _ _
      simp only [mem_cons, not_mem_nil, or_false] at ha
      rcases ha with rfl | rfl | rfl | rfl <;> exact ⟨by decide, mem_singleton_self _⟩)
    (fun s => 64 * 8 < ∑ k ∈ (s ()).validBlks, ((s ()).packed k).size) (by decide +kernel)
  refine ⟨s, hr, fun hfits => ?_⟩
  have hlarge := hsum
  exact Nat.not_lt.mpr hfits.total hlarge

end CompressedTags

end Gem5.Mem
