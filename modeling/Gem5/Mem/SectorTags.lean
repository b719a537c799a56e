import Gem5.Shared.Reachability
import Gem5.Shared.Sim
import Mathlib.Data.Fintype.Prod
import Mathlib.Algebra.Order.Ring.Nat

/-!
# Sector tags

A sector has one tag for all its blocks and counts those that are valid. The record `inserted` is
not in the source: it says for which block address and security each block was filled, and goes
along when a block is moved.
-/

namespace Gem5.Mem

open Finset
open Bool hiding and_assoc

open BitVec hiding and_assoc

open Function (update update_of_ne update_self)

structure SectorSubBlk where
  valid : Bool
  tag : BitVec 64
  secure : Bool

structure SectorBlk (n : Nat) where
  validCounter : BitVec 8
  tag : BitVec 64
  secure : Bool
  blks : Fin n → SectorSubBlk

def maxTag : BitVec 64 := BitVec.allOnes 64

namespace SectorBlk

variable {n : Nat}

def isValid (s : SectorBlk n) : Bool := decide (0 < s.validCounter.toNat)

def matchTag (s : SectorBlk n) (tag : BitVec 64) (isSecure : Bool) : Bool :=
  s.isValid && s.tag == tag && s.secure == isSecure

def insertTag (s : SectorBlk n) (tag : BitVec 64) (isSecure : Bool) : SectorBlk n :=
  if !s.isValid && tag != maxTag then ⟨s.validCounter, tag, s.secure || isSecure, s.blks⟩ else s

/-- `SectorSubBlk::insert` of block `k`. -/
def insertSub (s : SectorBlk n) (k : Fin n) (tag : BitVec 64) (isSecure : Bool) :
    Sim (SectorBlk n) :=
  if s.isValid && !s.matchTag tag isSecure then .error (.panic "Overwriting valid sector!")
  else do
    simAssert (!(s.blks k).valid)
    let t := s.insertTag tag isSecure
    pure ⟨t.validCounter + 1, t.tag, t.secure,
      update t.blks k ⟨true, tag, (s.blks k).secure || isSecure⟩⟩

/-- `SectorSubBlk::invalidate` of block `k`. -/
def invalidateSub (s : SectorBlk n) (k : Fin n) : SectorBlk n :=
  let blks := update s.blks k ⟨false, maxTag, false⟩
  if s.validCounter - 1 = 0 then ⟨0, maxTag, false, blks⟩
  else ⟨s.validCounter - 1, s.tag, s.secure, blks⟩

end SectorBlk

/-- An indexing policy for sectors of `2 ^ setShift` bytes: the address of a sector is found again
from its tag and its place. -/
structure IndexingPolicy (ι : Type) (setShift : Nat) where
  getPossibleEntries : BitVec 64 → List ι
  extractTag : BitVec 64 → BitVec 64
  regenerateAddr : BitVec 64 → ι → BitVec 64
  extractTag_ne : ∀ addr, extractTag addr ≠ maxTag
  regenerate : ∀ addr, ∀ i ∈ getPossibleEntries addr,
    regenerateAddr (extractTag addr) i = (addr >>> setShift) <<< setShift
  same : ∀ {addr addr' : BitVec 64}, addr >>> setShift = addr' >>> setShift →
    getPossibleEntries addr = getPossibleEntries addr' ∧ extractTag addr = extractTag addr'

/-- Blocks of `2 ^ sectorShift` bytes, `2 ^ b` of them in a sector. -/
structure SectorConfig (ι : Type) (b : Nat) where
  sectorShift : Nat
  indexing : IndexingPolicy ι (sectorShift + b)

structure SectorTags (ι : Type) (n : Nat) where
  sectors : ι → SectorBlk n
  tagsInUse : Int
  inserted : ι → Fin n → Option (BitVec 64 × Bool)

namespace SectorTags

variable {ι : Type} {b : Nat} (cfg : SectorConfig ι b)

def init {n : Nat} : SectorTags ι n where
  sectors := fun _ => ⟨0, maxTag, false, fun _ => ⟨false, maxTag, false⟩⟩
  tagsInUse := 0
  inserted := fun _ _ => none

def extractSectorOffset (addr : BitVec 64) : Fin (2 ^ b) :=
  ⟨(addr >>> cfg.sectorShift).toNat % 2 ^ b, Nat.mod_lt _ (Nat.two_pow_pos b)⟩

def blkAddr (addr : BitVec 64) : BitVec 64 := (addr >>> cfg.sectorShift) <<< cfg.sectorShift

def regenerateBlkAddr (s : SectorTags ι (2 ^ b)) (i : ι) (k : Fin (2 ^ b)) : BitVec 64 :=
  cfg.indexing.regenerateAddr (s.sectors i).tag i ||| (BitVec.ofNat 64 k <<< cfg.sectorShift)

def findBlock (s : SectorTags ι (2 ^ b)) (addr : BitVec 64) (isSecure : Bool) :
    Option (ι × Fin (2 ^ b)) :=
  let tag := cfg.indexing.extractTag addr
  let offset := extractSectorOffset cfg addr
  ((cfg.indexing.getPossibleEntries addr).find? fun i =>
    ((s.sectors i).blks offset).valid && (s.sectors i).tag == tag &&
      ((s.sectors i).blks offset).secure == isSecure).map fun i => (i, offset)

variable [DecidableEq ι]

def invalidate (s : SectorTags ι (2 ^ b)) (i : ι) (k : Fin (2 ^ b)) :
    Sim (SectorTags ι (2 ^ b)) := do
  simAssert ((s.sectors i).blks k).valid
  let blk := (s.sectors i).invalidateSub k
  let tagsInUse := if blk.isValid then s.tagsInUse else s.tagsInUse - 1
  simAssert (blk.isValid || decide (0 ≤ tagsInUse))
  pure ⟨update s.sectors i blk, tagsInUse,
    update s.inserted i (update (s.inserted i) k none)⟩

variable [Fintype ι]

def insertBlock (s : SectorTags ι (2 ^ b)) (addr : BitVec 64) (isSecure : Bool) (i : ι)
    (k : Fin (2 ^ b)) : Sim (SectorTags ι (2 ^ b)) := do
  let tagsInUse := if (s.sectors i).isValid then s.tagsInUse else s.tagsInUse + 1
  simAssert ((s.sectors i).isValid || decide (tagsInUse ≤ Fintype.card ι))
  let blk ← (s.sectors i).insertSub k (cfg.indexing.extractTag addr) isSecure
  pure ⟨update s.sectors i blk, tagsInUse,
    update s.inserted i
      (update (s.inserted i) k (some (blkAddr cfg addr, isSecure)))⟩

/-- The change of `tagsInUse` in `moveBlock`. -/
def movedTags (tagsInUse : Int) (srcValid destWasValid : Bool) : Int :=
  if !srcValid then if destWasValid then tagsInUse - 1 else tagsInUse
  else if !destWasValid then tagsInUse + 1 else tagsInUse

def moveBlock (s : SectorTags ι (2 ^ b)) (i : ι) (k : Fin (2 ^ b)) (j : ι) (l : Fin (2 ^ b)) :
    Sim (SectorTags ι (2 ^ b)) := do
  let destWasValid := (s.sectors j).isValid
  simAssert (!((s.sectors j).blks l).valid)
  simAssert ((s.sectors i).blks k).valid
  let blk ← (s.sectors j).insertSub l (s.sectors i).tag ((s.sectors i).blks k).secure
  let sectors := update s.sectors j blk
  let src := (sectors i).invalidateSub k
  let tagsInUse := movedTags s.tagsInUse src.isValid destWasValid
  simAssert (src.isValid || !destWasValid || decide (0 ≤ tagsInUse))
  simAssert (!src.isValid || destWasValid || decide (tagsInUse ≤ Fintype.card ι))
  let inserted := update s.inserted j (update (s.inserted j) l (s.inserted i k))
  pure ⟨update sectors i src, tagsInUse,
    update inserted i (update (inserted i) k none)⟩

def evict (s : SectorTags ι (2 ^ b)) (i : ι) : Sim (SectorTags ι (2 ^ b)) :=
  ((List.finRange (2 ^ b)).filter fun k => ((s.sectors i).blks k).valid).foldlM
    (fun s k => s.invalidate i k) s

/-- The sector of the victim and the state after the evictions; the policy chooses `victim`. -/
def findVictim (s : SectorTags ι (2 ^ b)) (addr : BitVec 64) (isSecure : Bool) (victim : ι) :
    Sim (ι × SectorTags ι (2 ^ b)) :=
  match (cfg.indexing.getPossibleEntries addr).find? fun i =>
      (s.sectors i).matchTag (cfg.indexing.extractTag addr) isSecure with
  | some i => do
    simAssert (!((s.sectors i).blks (extractSectorOffset cfg addr)).valid)
    pure (i, s)
  | none => do
    let t ← s.evict victim
    pure (victim, t)

inductive Act (ι : Type) (n : Nat) where
  | allocate (addr : BitVec 64) (isSecure : Bool) (victim : ι)
  | invalidate (i : ι) (k : Fin n)
  | move (i : ι) (k : Fin n) (j : ι) (l : Fin n)

def step (s : SectorTags ι (2 ^ b)) : Act ι (2 ^ b) → Sim (SectorTags ι (2 ^ b))
  | .allocate addr isSecure victim => do
    let (i, t) ← findVictim cfg s addr isSecure victim
    t.insertBlock cfg addr isSecure i (extractSectorOffset cfg addr)
  | .invalidate i k => s.invalidate i k
  | .move i k j l => s.moveBlock i k j l

def Act.Meant (s : SectorTags ι (2 ^ b)) : Act ι (2 ^ b) → Prop
  | .allocate addr _ victim => victim ∈ cfg.indexing.getPossibleEntries addr
  | .invalidate _ _ => True
  | .move i _ j _ => (s.sectors j).isValid = false ∨ (s.sectors j).tag = (s.sectors i).tag

def Act.Placed (s : SectorTags ι (2 ^ b)) : Act ι (2 ^ b) → Prop
  | .allocate addr isSecure _ => s.findBlock cfg addr isSecure = none
  | .invalidate _ _ => True
  | .move i k j l => l = k ∧ j ∈ cfg.indexing.getPossibleEntries (s.regenerateBlkAddr cfg i k)

end SectorTags

def SectorBlk.validBlks {n : Nat} (s : SectorBlk n) : Finset (Fin n) :=
  Finset.univ.filter fun k => (s.blks k).valid = true

def validSectors {ι : Type} [Fintype ι] {n : Nat} (f : ι → SectorBlk n) : Nat :=
  (Finset.univ.filter fun i => (f i).isValid = true).card

structure SectorTags.Consistent {ι : Type} [Fintype ι] {b : Nat} (cfg : SectorConfig ι b)
    (s : SectorTags ι (2 ^ b)) : Prop where
  counter : ∀ i, (s.sectors i).validCounter.toNat = (s.sectors i).validBlks.card
  carried : ∀ i, ∀ k ∈ (s.sectors i).validBlks,
    ((s.sectors i).blks k).tag = (s.sectors i).tag ∧
      ((s.sectors i).blks k).secure = (s.sectors i).secure
  unique : ∀ i j, ∀ k ∈ (s.sectors i).validBlks, ∀ l ∈ (s.sectors j).validBlks,
    s.regenerateBlkAddr cfg i k = s.regenerateBlkAddr cfg j l →
    ((s.sectors i).blks k).secure = ((s.sectors j).blks l).secure → i = j ∧ k = l
  found : ∀ addr isSecure i k, s.findBlock cfg addr isSecure = some (i, k) ↔
    s.inserted i k = some (blkAddr cfg addr, isSecure)
  regenerated : ∀ addr isSecure i k, s.findBlock cfg addr isSecure = some (i, k) →
    s.regenerateBlkAddr cfg i k = blkAddr cfg addr
  inUse : s.tagsInUse = validSectors s.sectors

section Addresses

variable {ι : Type} {b : Nat} {cfg : SectorConfig ι b} {x y : BitVec 64}

open SectorTags

theorem blkAddr_eq (x : BitVec 64) : blkAddr cfg x =
    (x >>> (cfg.sectorShift + b)) <<< (cfg.sectorShift + b) |||
      (BitVec.ofNat 64 (extractSectorOffset cfg x) <<< cfg.sectorShift) := by
  apply eq_of_getLsbD_eq
  intro j hj
  rw [blkAddr, extractSectorOffset, getLsbD_or, getLsbD_shiftLeft,
    getLsbD_shiftLeft, getLsbD_shiftLeft, getLsbD_ushiftRight,
    getLsbD_ushiftRight, getLsbD_ofNat, Nat.testBit_mod_two_pow,
    decide_eq_true hj]
  change _ = (_ || _ && (_ && (_ && (x >>> cfg.sectorShift).getLsbD _)))
  rw [getLsbD_ushiftRight]
  by_cases hlow : j < cfg.sectorShift
  · simp [hlow, Nat.lt_add_right b hlow]
  · by_cases hmid : j < cfg.sectorShift + b
    · rw [decide_eq_true (by omega : j - cfg.sectorShift < 64),
        decide_eq_true (by omega : j - cfg.sectorShift < b)]
      simp [hlow, hmid]
    · rw [Nat.add_sub_cancel' (Nat.not_lt.mp hlow), Nat.add_sub_cancel' (Nat.not_lt.mp hmid)]
      simp [hlow, hmid]

theorem shift_cleared (x : BitVec 64) (u v : Nat) :
    ((x >>> u) <<< u) >>> (u + v) = x >>> (u + v) := by
  ext j hj
  simp only [getElem_ushiftRight, getLsbD_shiftLeft, getLsbD_ushiftRight]
  grind

theorem shift_blkAddr (x : BitVec 64) : blkAddr cfg x >>> cfg.sectorShift = x >>> cfg.sectorShift :=
  shift_cleared x cfg.sectorShift 0

theorem blkAddr_blkAddr (x : BitVec 64) : blkAddr cfg (blkAddr cfg x) = blkAddr cfg x := by
  rw [blkAddr, shift_blkAddr, blkAddr]

theorem offset_blkAddr (x : BitVec 64) :
    extractSectorOffset cfg (blkAddr cfg x) = extractSectorOffset cfg x := by
  apply Fin.ext
  change (blkAddr cfg x >>> cfg.sectorShift).toNat % 2 ^ b = (x >>> cfg.sectorShift).toNat % 2 ^ b
  rw [shift_blkAddr]

theorem indexing_blkAddr (x : BitVec 64) :
    cfg.indexing.getPossibleEntries (blkAddr cfg x) = cfg.indexing.getPossibleEntries x ∧
      cfg.indexing.extractTag (blkAddr cfg x) = cfg.indexing.extractTag x :=
  cfg.indexing.same (shift_cleared x cfg.sectorShift b)

theorem blkAddr_eq_of_place {i : ι} (hx : i ∈ cfg.indexing.getPossibleEntries x)
    (hy : i ∈ cfg.indexing.getPossibleEntries y)
    (htag : cfg.indexing.extractTag x = cfg.indexing.extractTag y)
    (hoffset : extractSectorOffset cfg x = extractSectorOffset cfg y) :
    blkAddr cfg x = blkAddr cfg y := by
  rw [blkAddr_eq, blkAddr_eq, ← cfg.indexing.regenerate x i hx, ← cfg.indexing.regenerate y i hy,
    htag, hoffset]

end Addresses

section Sectors

variable {ι : Type} {b : Nat} {cfg : SectorConfig ι b} {i : ι}
  {s t : SectorBlk (2 ^ b)} {own : Fin (2 ^ b) → Option (BitVec 64 × Bool)} {k : Fin (2 ^ b)}

open SectorTags

/-- The block `k` of sector `i` was filled for the address `x`. -/
structure Filled (cfg : SectorConfig ι b) (i : ι) (tag : BitVec 64) (k : Fin (2 ^ b))
    (x : BitVec 64) : Prop where
  entry : i ∈ cfg.indexing.getPossibleEntries x
  tag : cfg.indexing.extractTag x = tag
  offset : extractSectorOffset cfg x = k
  block : blkAddr cfg x = x

structure SectorBlk.Kept (cfg : SectorConfig ι b) (i : ι) (s : SectorBlk (2 ^ b))
    (own : Fin (2 ^ b) → Option (BitVec 64 × Bool)) : Prop where
  counter : s.validCounter.toNat = s.validBlks.card
  idle : s.validBlks = ∅ → s.secure = false
  carried : ∀ k, (s.blks k).valid = true → (s.blks k).tag = s.tag ∧ (s.blks k).secure = s.secure
  free : ∀ k, (s.blks k).valid = false → (s.blks k).secure = false ∧ own k = none
  owned : ∀ k, (s.blks k).valid = true → ∃ x, own k = some (x, s.secure) ∧ Filled cfg i s.tag k x

namespace SectorBlk

theorem mem_validBlks {n : Nat} {s : SectorBlk n} {k : Fin n} :
    k ∈ s.validBlks ↔ (s.blks k).valid = true := by
  simp [validBlks]

theorem isValid_iff {n : Nat} {s : SectorBlk n} (h : s.validCounter.toNat = s.validBlks.card) :
    s.isValid = true ↔ s.validBlks.Nonempty := by
  rw [isValid, decide_eq_true_iff, h, card_pos]

theorem Kept.valid_of_own (h : s.Kept cfg i own) {y : BitVec 64 × Bool} (hy : own k = some y) :
    (s.blks k).valid = true := by
  cases hv : (s.blks k).valid with
  | true => rfl
  | false =>
    rw [(h.free k hv).2] at hy
    cases hy

theorem matchTag_iff {n : Nat} {s : SectorBlk n} {tag : BitVec 64} {isSecure : Bool} :
    s.matchTag tag isSecure = true ↔ s.isValid = true ∧ s.tag = tag ∧ s.secure = isSecure := by
  rw [matchTag, and_eq_true, and_eq_true, beq_iff_eq, beq_iff_eq, and_assoc]

theorem Kept.insertTag {tag : BitVec 64} {isSecure : Bool} (h : s.Kept cfg i own)
    (htag : tag ≠ maxTag) (hguard : ¬(s.isValid && !s.matchTag tag isSecure) = true) :
    (s.insertTag tag isSecure).tag = tag ∧ (s.insertTag tag isSecure).secure = isSecure ∧
      (∀ l, (s.blks l).valid = true → s.tag = tag ∧ s.secure = isSecure) := by
  cases hv : s.isValid with
  | true =>
    rw [hv, Bool.true_and, not_eq_true', not_eq_false] at hguard
    obtain ⟨_, heq, hsec⟩ := matchTag_iff.mp hguard
    rw [SectorBlk.insertTag, hv]
    exact ⟨heq, hsec, fun _ _ => ⟨heq, hsec⟩⟩
  | false =>
    have hnone : ∀ l, (s.blks l).valid ≠ true := by
      intro l hl
      have hsome := (isValid_iff h.counter).mpr ⟨l, mem_validBlks.mpr hl⟩
      rw [hv] at hsome
      cases hsome
    have hempty : s.validBlks = ∅ :=
      eq_empty_of_forall_notMem fun l hl => hnone l (mem_validBlks.mp hl)
    rw [SectorBlk.insertTag, hv, if_pos (by simpa using htag), h.idle hempty]
    exact ⟨rfl, Bool.false_or _, fun l hl => absurd hl (hnone l)⟩

theorem insertTag_same {n : Nat} {s : SectorBlk n} {tag : BitVec 64} {isSecure : Bool} :
    (s.insertTag tag isSecure).blks = s.blks ∧
      (s.insertTag tag isSecure).validCounter = s.validCounter := by
  rw [SectorBlk.insertTag]
  split <;> exact ⟨rfl, rfl⟩

section Valid

variable {n : Nat} {s t : SectorBlk n} {k : Fin n}

theorem mem_update_iff {c : BitVec 8} {tag : BitVec 64} {secure : Bool} {blk : SectorSubBlk}
    {l : Fin n} : l ∈ validBlks ⟨c, tag, secure, update s.blks k blk⟩ ↔
      if l = k then blk.valid = true else l ∈ s.validBlks := by
  simp only [mem_validBlks, Function.update_apply]
  split <;> rfl

theorem insertSub_spec {tag : BitVec 64} {isSecure : Bool}
    (h : s.insertSub k tag isSecure = .ok t) : (s.blks k).valid = false ∧
      t.validBlks = Insert.insert k s.validBlks ∧ t.validCounter = s.validCounter + 1 := by
  unfold insertSub at h
  split at h
  · cases h
  obtain ⟨_, hfree, rfl⟩ := map_eq_ok.mp h
  rw [simAssert_eq_ok, not_eq_true'] at hfree
  refine ⟨hfree, ?_, by rw [insertTag_same.2]⟩
  ext l
  rw [insertTag_same.1, mem_update_iff, mem_insert]
  split <;> simp_all

theorem counter_insertSub {tag : BitVec 64} {isSecure : Bool}
    (h : s.insertSub k tag isSecure = .ok t) (hcount : s.validCounter.toNat = s.validBlks.card)
    (hroom : t.validBlks.card < 256) : t.validCounter.toNat = t.validBlks.card ∧
      t.validBlks.card = s.validBlks.card + 1 := by
  obtain ⟨hfree, hvalid, hnext⟩ := insertSub_spec h
  have hnot : k ∉ s.validBlks := fun hmem => by
    rw [mem_validBlks, hfree] at hmem
    cases hmem
  have hcard := card_insert_of_notMem hnot
  rw [← hvalid] at hcard
  rw [hnext, toNat_add, hcount, hcard]
  exact ⟨Nat.mod_eq_of_lt (hcard ▸ hroom), rfl⟩

theorem validBlks_invalidateSub : (s.invalidateSub k).validBlks = s.validBlks.erase k := by
  ext l
  rw [invalidateSub, mem_erase]
  split <;> rw [mem_update_iff] <;> split <;> simp_all

theorem counter_invalidateSub (hk : (s.blks k).valid = true)
    (hcount : s.validCounter.toNat = s.validBlks.card) :
    (s.invalidateSub k).validCounter.toNat = (s.invalidateSub k).validBlks.card := by
  have hcard := card_erase_add_one (mem_validBlks.mpr hk)
  rw [validBlks_invalidateSub, invalidateSub]
  split <;> bv_omega

end Valid

theorem Kept.insertSub {tag x : BitVec 64} {isSecure : Bool} (h : s.Kept cfg i own)
    (hn : 2 ^ b < 256)
    (htag : tag ≠ maxTag) (hx : Filled cfg i tag k x) (hins : s.insertSub k tag isSecure = .ok t) :
    t.Kept cfg i (update own k (some (x, isSecure))) ∧ t.isValid = true ∧
      (s.blks k).valid = false := by
  obtain ⟨hfree, hvalid, _⟩ := insertSub_spec hins
  have hbound : t.validBlks.card ≤ 2 ^ b := by simpa using card_le_univ t.validBlks
  obtain ⟨hcounter, hcard⟩ := counter_insertSub hins h.counter (by omega)
  unfold SectorBlk.insertSub at hins
  split at hins
  · cases hins
  rename_i hguard
  obtain ⟨_, _, hins⟩ := bind_eq_ok.mp hins
  obtain ⟨htagT, hsecT, hsame⟩ := h.insertTag htag hguard
  have hblks : (s.insertTag tag isSecure).blks = s.blks := insertTag_same.1
  have hcount : (s.insertTag tag isSecure).validCounter = s.validCounter := insertTag_same.2
  have hresult := Except.ok.inj hins
  rw [htagT, hsecT, hblks, hcount, (h.free k hfree).1, Bool.false_or] at hresult
  subst hresult
  refine ⟨⟨hcounter, fun hempty => ?_, fun l hl => ?_, fun l hl => ?_, fun l hl => ?_⟩, ?_, hfree⟩
  · rw [hvalid] at hempty
    exact absurd hempty (insert_ne_empty _ _)
  · by_cases hlk : l = k
    · subst hlk
      simp
    · simp only [update_of_ne hlk] at hl ⊢
      rw [(h.carried l hl).1, (h.carried l hl).2]
      exact hsame l hl
  · by_cases hlk : l = k
    · subst hlk
      simp at hl
    · simp only [update_of_ne hlk] at hl ⊢
      exact h.free l hl
  · by_cases hlk : l = k
    · subst hlk
      exact ⟨x, update_self _ _ _, hx⟩
    · simp only [update_of_ne hlk] at hl ⊢
      obtain ⟨y, hy, hfilled⟩ := h.owned l hl
      rw [(hsame l hl).1] at hfilled
      rw [(hsame l hl).2] at hy
      exact ⟨y, hy, hfilled⟩
  · rw [isValid, decide_eq_true_iff]
    omega

theorem Kept.invalidateSub (h : s.Kept cfg i own) (hk : (s.blks k).valid = true) :
    (s.invalidateSub k).Kept cfg i (update own k none) := by
  have hcounter := counter_invalidateSub hk h.counter
  have hother : ∀ l, (update s.blks k ⟨false, maxTag, false⟩ l).valid = true →
      l ≠ k ∧ (s.blks l).valid = true := by
    intro l hl
    by_cases hlk : l = k
    · subst hlk
      simp at hl
    · rw [update_of_ne hlk] at hl
      exact ⟨hlk, hl⟩
  have hfree : ∀ l, (update s.blks k ⟨false, maxTag, false⟩ l).valid = false →
      (update s.blks k ⟨false, maxTag, false⟩ l).secure = false ∧
        update own k none l = none := by
    intro l hl
    by_cases hlk : l = k
    · subst hlk
      simp
    · rw [update_of_ne hlk] at hl ⊢
      rw [update_of_ne hlk]
      exact h.free l hl
  rw [SectorBlk.invalidateSub] at hcounter ⊢
  split
  · rename_i hzero
    rw [if_pos hzero] at hcounter
    have hempty := card_eq_zero.mp hcounter.symm
    have hnone : ∀ l, (update s.blks k ⟨false, maxTag, false⟩ l).valid ≠ true := fun l hl =>
      notMem_empty l (hempty ▸ mem_validBlks.mpr hl)
    exact ⟨hcounter, fun _ => rfl, fun l hl => absurd hl (hnone l), hfree,
      fun l hl => absurd hl (hnone l)⟩
  · rename_i hne
    rw [if_neg hne] at hcounter
    refine ⟨hcounter, fun hempty => ?_, fun l hl => ?_, hfree, fun l hl => ?_⟩
    · rw [hempty] at hcounter
      exact absurd (eq_of_toNat_eq hcounter) hne
    · obtain ⟨hlk, hl⟩ := hother l hl
      simp only [update_of_ne hlk]
      exact h.carried l hl
    · obtain ⟨hlk, hl⟩ := hother l hl
      simp only [update_of_ne hlk]
      exact h.owned l hl

end SectorBlk

end Sectors

section Counts

variable {ι : Type} [Fintype ι] [DecidableEq ι] {n : Nat}

theorem card_filter_apart (p : ι → Bool) (i : ι) : (Finset.univ.filter fun j => p j = true).card =
    ((Finset.univ.erase i).filter fun j => p j = true).card + (p i).toNat := by
  conv_lhs => rw [← insert_erase (mem_univ i), filter_insert]
  have hnot : i ∉ (Finset.univ.erase i).filter fun j => p j = true := fun h =>
    notMem_erase i _ (mem_filter.mp h).1
  cases hp : p i with
  | true =>
    rw [if_pos rfl, card_insert_of_notMem hnot]
    rfl
  | false =>
    rfl

theorem validSectors_update (f : ι → SectorBlk n) (i : ι) (blk : SectorBlk n) :
    validSectors (update f i blk) + (f i).isValid.toNat =
      validSectors f + blk.isValid.toNat := by
  have hsame : ((Finset.univ.erase i).filter fun j => (update f i blk j).isValid = true) =
      (Finset.univ.erase i).filter fun j => (f j).isValid = true := by
    apply filter_congr
    intro j hj
    rw [update_of_ne (ne_of_mem_erase hj)]
  have hnew := card_filter_apart (fun j => (update f i blk j).isValid) i
  have hold := card_filter_apart (fun j => (f j).isValid) i
  simp only [update_self, hsame] at hnew
  rw [validSectors, validSectors]
  omega

variable {f : ι → SectorBlk n} {i : ι} {blk : SectorBlk n} {c : Int}

theorem validSectors_lose (h : c = validSectors f) (hold : (f i).isValid = true) :
    (if blk.isValid then c else c - 1) = validSectors (update f i blk) := by
  have hcount := validSectors_update f i blk
  rw [hold] at hcount
  cases hblk : blk.isValid with
  | true =>
    rw [hblk] at hcount
    rw [if_pos rfl]
    omega
  | false =>
    rw [hblk, toNat_true, toNat_false] at hcount
    rw [if_neg Bool.false_ne_true]
    omega

theorem validSectors_gain (h : c = validSectors f) (hblk : blk.isValid = true) :
    (if (f i).isValid then c else c + 1) = validSectors (update f i blk) := by
  have hcount := validSectors_update f i blk
  rw [hblk] at hcount
  cases hold : (f i).isValid with
  | true =>
    rw [hold] at hcount
    rw [if_pos rfl]
    omega
  | false =>
    rw [hold, toNat_true, toNat_false] at hcount
    rw [if_neg Bool.false_ne_true]
    omega

end Counts

namespace SectorTags

variable {ι : Type} {b : Nat} {cfg : SectorConfig ι b}
  {s t : SectorTags ι (2 ^ b)} {i j : ι} {k l : Fin (2 ^ b)} {addr : BitVec 64} {isSecure : Bool}

theorem find_iff : s.findBlock cfg addr isSecure = some (i, k) ↔
    (cfg.indexing.getPossibleEntries addr).find? (fun i =>
      ((s.sectors i).blks (extractSectorOffset cfg addr)).valid &&
        (s.sectors i).tag == cfg.indexing.extractTag addr &&
        ((s.sectors i).blks (extractSectorOffset cfg addr)).secure == isSecure) = some i ∧
      extractSectorOffset cfg addr = k := by
  rw [findBlock, Option.map_eq_some_iff]
  constructor
  · rintro ⟨i', hfind, heq⟩
    cases heq
    exact ⟨hfind, rfl⟩
  · rintro ⟨hfind, rfl⟩
    exact ⟨i, hfind, rfl⟩

theorem kept_update [DecidableEq ι] {blk : SectorBlk (2 ^ b)}
    {own : Fin (2 ^ b) → Option (BitVec 64 × Bool)}
    {f : ι → SectorBlk (2 ^ b)} {g : ι → Fin (2 ^ b) → Option (BitVec 64 × Bool)}
    (h : ∀ j, (f j).Kept cfg j (g j)) (hblk : blk.Kept cfg i own) (j : ι) :
    (update f i blk j).Kept cfg j (update g i own j) := by
  by_cases hj : j = i
  · subst hj
    rw [update_self, update_self]
    exact hblk
  · rw [update_of_ne hj, update_of_ne hj]
    exact h j

theorem record_cases [DecidableEq ι] {g : ι → Fin (2 ^ b) → Option (BitVec 64 × Bool)}
    {v : Option (BitVec 64 × Bool)} {y : BitVec 64 × Bool}
    (h : update g i (update (g i) k v) j l = some y) :
    (j = i ∧ l = k ∧ v = some y) ∨ (¬(j = i ∧ l = k) ∧ g j l = some y) := by
  by_cases hj : j = i
  · subst hj
    rw [update_self] at h
    by_cases hl : l = k
    · subst hl
      rw [update_self] at h
      exact .inl ⟨rfl, rfl, h⟩
    · rw [update_of_ne hl] at h
      exact .inr ⟨fun hjl => hl hjl.2, h⟩
  · rw [update_of_ne hj] at h
    exact .inr ⟨fun hjl => hj hjl.1, h⟩

theorem record_none [DecidableEq ι] {g : ι → Fin (2 ^ b) → Option (BitVec 64 × Bool)}
    {y : BitVec 64 × Bool}
    (h : update g i (update (g i) k none) j l = some y) : g j l = some y := by
  rcases record_cases h with ⟨_, _, hnone⟩ | ⟨_, hsame⟩
  · cases hnone
  · exact hsame

variable [Fintype ι]

structure Inv (cfg : SectorConfig ι b) (s : SectorTags ι (2 ^ b)) : Prop where
  kept : ∀ i, (s.sectors i).Kept cfg i (s.inserted i)
  apart : ∀ {i j k l y}, s.inserted i k = some y → s.inserted j l = some y → i = j ∧ k = l
  inUse : s.tagsInUse = validSectors s.sectors

section Found

theorem Inv.inserted_of_accepted (h : s.Inv cfg) (hi : i ∈ cfg.indexing.getPossibleEntries addr)
    (hvalid : ((s.sectors i).blks (extractSectorOffset cfg addr)).valid = true)
    (htag : (s.sectors i).tag = cfg.indexing.extractTag addr)
    (hsec : ((s.sectors i).blks (extractSectorOffset cfg addr)).secure = isSecure) :
    s.inserted i (extractSectorOffset cfg addr) = some (blkAddr cfg addr, isSecure) := by
  obtain ⟨x, hx, hfilled⟩ := (h.kept i).owned _ hvalid
  have heq : x = blkAddr cfg addr := by
    rw [← hfilled.block]
    exact blkAddr_eq_of_place hfilled.entry hi (hfilled.tag.trans htag) hfilled.offset
  rw [hx, heq, ← hsec, ((h.kept i).carried _ hvalid).2]

theorem Inv.found (h : s.Inv cfg) : s.findBlock cfg addr isSecure = some (i, k) ↔
    s.inserted i k = some (blkAddr cfg addr, isSecure) := by
  rw [find_iff]
  constructor
  · rintro ⟨hfind, rfl⟩
    have haccept := List.find?_some hfind
    simp only [and_eq_true, beq_iff_eq] at haccept
    exact h.inserted_of_accepted (List.mem_of_find?_eq_some hfind) haccept.1.1 haccept.1.2 haccept.2
  · intro hins
    have hvalid := (h.kept i).valid_of_own hins
    obtain ⟨x, hx, hfilled⟩ := (h.kept i).owned k hvalid
    rw [hins] at hx
    obtain ⟨rfl, hsec⟩ := Prod.mk.inj (Option.some.inj hx)
    have hoffset : extractSectorOffset cfg addr = k :=
      (offset_blkAddr addr).symm.trans hfilled.offset
    have hentry := hfilled.entry
    have htag := hfilled.tag
    rw [(indexing_blkAddr addr).1] at hentry
    rw [(indexing_blkAddr addr).2] at htag
    refine ⟨?_, hoffset⟩
    cases hfind : (cfg.indexing.getPossibleEntries addr).find? fun i =>
        ((s.sectors i).blks (extractSectorOffset cfg addr)).valid &&
          (s.sectors i).tag == cfg.indexing.extractTag addr &&
          ((s.sectors i).blks (extractSectorOffset cfg addr)).secure == isSecure with
    | none =>
      have hno := List.find?_eq_none.mp hfind i hentry
      simp only [and_eq_true, beq_iff_eq] at hno
      rw [hoffset] at hno
      exact absurd ⟨⟨hvalid, htag.symm⟩, ((h.kept i).carried k hvalid).2.trans hsec.symm⟩ hno
    | some i' =>
      -- the search cannot stop at another entry, since the filled blocks are apart
      have haccept := List.find?_some hfind
      simp only [and_eq_true, beq_iff_eq] at haccept
      have hins' := h.inserted_of_accepted (List.mem_of_find?_eq_some hfind) haccept.1.1 haccept.1.2
        haccept.2
      rw [(h.apart hins' hins).1]

theorem Inv.regenerated (h : s.Inv cfg) {x : BitVec 64}
    (hins : s.inserted i k = some (x, isSecure)) :
    s.regenerateBlkAddr cfg i k = x := by
  have hvalid := (h.kept i).valid_of_own hins
  obtain ⟨x', hx, hfilled⟩ := (h.kept i).owned k hvalid
  rw [hins] at hx
  obtain ⟨rfl, _⟩ := Prod.mk.inj (Option.some.inj hx)
  have hparts : blkAddr cfg x = _ := blkAddr_eq x
  rw [hfilled.block, hfilled.offset, ← cfg.indexing.regenerate x i hfilled.entry,
    hfilled.tag] at hparts
  exact hparts.symm

theorem Inv.consistent (h : s.Inv cfg) : s.Consistent cfg where
  counter := fun i => (h.kept i).counter
  carried := fun i k hk => (h.kept i).carried k (SectorBlk.mem_validBlks.mp hk)
  unique := by
    intro i j k hk l hl haddr hsec
    have hvk := SectorBlk.mem_validBlks.mp hk
    have hvl := SectorBlk.mem_validBlks.mp hl
    obtain ⟨x, hx, _⟩ := (h.kept i).owned k hvk
    obtain ⟨y, hy, _⟩ := (h.kept j).owned l hvl
    rw [h.regenerated hx, h.regenerated hy] at haddr
    rw [((h.kept i).carried k hvk).2, ((h.kept j).carried l hvl).2] at hsec
    rw [haddr, hsec] at hx
    exact h.apart hx hy
  found := fun _ _ _ _ => h.found
  regenerated := fun _ _ _ _ hfind => h.regenerated (h.found.mp hfind)
  inUse := h.inUse

end Found

theorem inv_init : (init : SectorTags ι (2 ^ b)).Inv cfg := by
  refine ⟨fun i => ⟨?_, fun _ => rfl, fun k hk => ?_, fun k _ => ⟨rfl, rfl⟩, fun k hk => ?_⟩,
    fun hi _ => ?_, ?_⟩
  · simp [SectorBlk.validBlks, init]
  · cases hk
  · cases hk
  · cases hi
  · simp [validSectors, SectorBlk.isValid, init]

section Steps

variable [DecidableEq ι]

theorem Inv.invalidate (h : s.Inv cfg) (hstep : s.invalidate i k = .ok t) :
    t.Inv cfg ∧ ∀ {j l y}, t.inserted j l = some y → s.inserted j l = some y := by
  obtain ⟨_, hvalid, hstep⟩ := bind_eq_ok.mp hstep
  rw [simAssert_eq_ok] at hvalid
  obtain ⟨_, _, rfl⟩ := map_eq_ok.mp hstep
  refine ⟨⟨kept_update h.kept ((h.kept i).invalidateSub hvalid),
    fun hi hj => h.apart (record_none hi) (record_none hj), ?_⟩, record_none⟩
  have hsome : (s.sectors i).isValid = true :=
    (SectorBlk.isValid_iff (h.kept i).counter).mpr ⟨k, SectorBlk.mem_validBlks.mpr hvalid⟩
  exact validSectors_lose h.inUse hsome

theorem Inv.evict (h : s.Inv cfg) (hstep : s.evict i = .ok t) :
    t.Inv cfg ∧ ∀ {j l y}, t.inserted j l = some y → s.inserted j l = some y := by
  have hfold : ∀ (ks : List (Fin (2 ^ b))) (s : SectorTags ι (2 ^ b)), s.Inv cfg →
      ks.foldlM (fun s k => s.invalidate i k) s = .ok t →
      t.Inv cfg ∧ ∀ {j l y}, t.inserted j l = some y → s.inserted j l = some y := by
    intro ks
    induction ks with
    | nil =>
      intro s h hok
      cases hok
      exact ⟨h, id⟩
    | cons k ks ih =>
      intro s h hok
      obtain ⟨u, hu, hok⟩ := bind_eq_ok.mp hok
      obtain ⟨hinv, hback⟩ := h.invalidate hu
      obtain ⟨hinv', hback'⟩ := ih u hinv hok
      exact ⟨hinv', fun hins => hback (hback' hins)⟩
  exact hfold _ s h hstep

theorem Inv.insertBlock (h : s.Inv cfg) (hn : 2 ^ b < 256)
    (hi : i ∈ cfg.indexing.getPossibleEntries addr)
    (hnew : ∀ {j l}, s.inserted j l ≠ some (blkAddr cfg addr, isSecure))
    (hstep : s.insertBlock cfg addr isSecure i (extractSectorOffset cfg addr) = .ok t) :
    t.Inv cfg := by
  obtain ⟨_, _, hstep⟩ := bind_eq_ok.mp hstep
  obtain ⟨blk, hblk, rfl⟩ := map_eq_ok.mp hstep
  have hfilled : Filled cfg i (cfg.indexing.extractTag addr) (extractSectorOffset cfg addr)
      (blkAddr cfg addr) := by
    refine ⟨?_, (indexing_blkAddr addr).2, offset_blkAddr addr, blkAddr_blkAddr addr⟩
    rw [(indexing_blkAddr addr).1]
    exact hi
  obtain ⟨hkept, hvalid, _⟩ :=
    (h.kept i).insertSub hn (cfg.indexing.extractTag_ne addr) hfilled hblk
  refine ⟨kept_update h.kept hkept, fun hi hj => ?_, ?_⟩
  · rcases record_cases hi with ⟨rfl, rfl, hy⟩ | ⟨_, hold⟩
    · rcases record_cases hj with ⟨rfl, rfl, _⟩ | ⟨_, hold⟩
      · exact ⟨rfl, rfl⟩
      · rw [← hy] at hold
        exact absurd hold hnew
    · rcases record_cases hj with ⟨rfl, rfl, hy⟩ | ⟨_, hold'⟩
      · rw [← hy] at hold
        exact absurd hold hnew
      · exact h.apart hold hold'
  · exact validSectors_gain h.inUse hvalid

theorem Inv.moveBlock (h : s.Inv cfg) (hn : 2 ^ b < 256)
    (hj : j ∈ cfg.indexing.getPossibleEntries (s.regenerateBlkAddr cfg i k))
    (hstep : s.moveBlock i k j k = .ok t) : t.Inv cfg := by
  obtain ⟨_, hfree, hstep⟩ := bind_eq_ok.mp hstep
  rw [simAssert_eq_ok, not_eq_true'] at hfree
  obtain ⟨_, hvalid, hstep⟩ := bind_eq_ok.mp hstep
  rw [simAssert_eq_ok] at hvalid
  obtain ⟨blk, hblk, hstep⟩ := bind_eq_ok.mp hstep
  obtain ⟨_, _, hstep⟩ := bind_eq_ok.mp hstep
  obtain ⟨_, _, rfl⟩ := map_eq_ok.mp hstep
  have hne : i ≠ j := by
    rintro rfl
    rw [hfree] at hvalid
    cases hvalid
  obtain ⟨x, hx, hfilled⟩ := (h.kept i).owned k hvalid
  rw [h.regenerated hx] at hj
  have htag : (s.sectors i).tag ≠ maxTag := hfilled.tag ▸ cfg.indexing.extractTag_ne x
  have hdest : Filled cfg j (s.sectors i).tag k x :=
    ⟨hj, hfilled.tag, hfilled.offset, hfilled.block⟩
  obtain ⟨hkept, hnow, _⟩ := (h.kept j).insertSub hn htag hdest hblk
  rw [((h.kept i).carried k hvalid).2] at hkept
  rw [← hx] at hkept
  have hmid := kept_update h.kept hkept
  have hstay : update s.sectors j blk i = s.sectors i := update_of_ne hne _ _
  have hleave := (hmid i).invalidateSub (k := k) (by rwa [hstay])
  refine ⟨kept_update hmid hleave, fun ha hb => ?_, ?_⟩
  · have hside : ∀ {p m y}, update s.inserted j (update (s.inserted j) k (s.inserted i k))
        p m = some y → ¬(p = i ∧ m = k) →
        (p = j ∧ m = k ∧ s.inserted i k = some y) ∨
          (¬(p = i ∧ m = k) ∧ s.inserted p m = some y) := by
      intro p m y hy hnot
      rcases record_cases hy with hcase | ⟨_, hold⟩
      · exact .inl hcase
      · exact .inr ⟨hnot, hold⟩
    rcases record_cases ha with ⟨_, _, hnone⟩ | ⟨hnotA, ha⟩
    · cases hnone
    rcases record_cases hb with ⟨_, _, hnone⟩ | ⟨hnotB, hb⟩
    · cases hnone
    rcases hside ha hnotA with ⟨rfl, rfl, hya⟩ | ⟨_, holdA⟩
    · rcases hside hb hnotB with ⟨rfl, rfl, _⟩ | ⟨_, holdB⟩
      · exact ⟨rfl, rfl⟩
      · exact absurd (h.apart holdB hya) hnotB
    · rcases hside hb hnotB with ⟨rfl, rfl, hyb⟩ | ⟨_, holdB⟩
      · exact absurd (h.apart holdA hyb) hnotA
      · exact h.apart holdA holdB
  · have hgain := validSectors_gain (i := j) h.inUse hnow
    have hsome : (update s.sectors j blk i).isValid = true := by
      rw [hstay]
      exact (SectorBlk.isValid_iff (h.kept i).counter).mpr ⟨k, SectorBlk.mem_validBlks.mpr hvalid⟩
    refine Eq.trans ?_ (validSectors_lose hgain hsome)
    unfold movedTags
    cases ((update s.sectors j blk i).invalidateSub k).isValid <;>
      cases (s.sectors j).isValid <;> simp

theorem Inv.step {a : Act ι (2 ^ b)} (h : s.Inv cfg) (hn : 2 ^ b < 256) (hmeant : a.Meant cfg s)
    (hplaced : a.Placed cfg s) (hstep : s.step cfg a = .ok t) : t.Inv cfg := by
  cases a with
  | invalidate i k => exact (h.invalidate hstep).1
  | move i k j l =>
    obtain ⟨rfl, hj⟩ := hplaced
    exact h.moveBlock hn hj hstep
  | allocate addr isSecure victim =>
    have hnew : ∀ {j l}, s.inserted j l ≠ some (blkAddr cfg addr, isSecure) := by
      intro j l hins
      have hfind := h.found.mpr hins
      rw [show s.findBlock cfg addr isSecure = none from hplaced] at hfind
      cases hfind
    obtain ⟨⟨i, u⟩, hvictim, hstep⟩ := bind_eq_ok.mp hstep
    unfold findVictim at hvictim
    split at hvictim
    · rename_i i' hfind
      obtain ⟨_, _, hvictim⟩ := bind_eq_ok.mp hvictim
      cases hvictim
      exact h.insertBlock hn (List.mem_of_find?_eq_some hfind) hnew hstep
    · obtain ⟨u', hevict, hvictim⟩ := bind_eq_ok.mp hvictim
      cases hvictim
      obtain ⟨hinv, hback⟩ := h.evict hevict
      exact hinv.insertBlock hn hmeant (fun hins => hnew (hback hins)) hstep

end Steps

/-- With fewer than 256 blocks in a sector the tags are consistent in every run that fills on a
miss and moves a block to its own offset in a possible entry. -/
theorem sector_tags_consistent {ι : Type} [Fintype ι] [DecidableEq ι] {b : Nat}
    (cfg : SectorConfig ι b) (hn : 2 ^ b < 256) {s : SectorTags ι (2 ^ b)}
    (hr : Reach (fun s a => step cfg s a) (fun s a => a.Meant cfg s ∧ a.Placed cfg s) init s) :
    s.Consistent cfg := by
  have hinv : s.Inv cfg := hr.invariant inv_init fun h ha hstep => h.step hn ha.1 ha.2 hstep
  exact hinv.consistent

instance {ι : Type} [DecidableEq ι] {b : Nat} (cfg : SectorConfig ι b) (s : SectorTags ι (2 ^ b))
    (a : Act ι (2 ^ b)) : Decidable (a.Meant cfg s ∧ a.Placed cfg s) :=
  match a with
  | .allocate addr isSecure victim => inferInstanceAs (Decidable
      (victim ∈ cfg.indexing.getPossibleEntries addr ∧ s.findBlock cfg addr isSecure = none))
  | .invalidate _ _ => inferInstanceAs (Decidable (True ∧ True))
  | .move i k j l => inferInstanceAs (Decidable
      (((s.sectors j).isValid = false ∨ (s.sectors j).tag = (s.sectors i).tag) ∧
        l = k ∧ j ∈ cfg.indexing.getPossibleEntries (s.regenerateBlkAddr cfg i k)))

end SectorTags

/-- The usual policy, with `2 ^ n` sets. The number of a set is shifted as a 32-bit number, so the
sets must not take more than 32 bits of the address. -/
def setAssociative (setShift n assoc : Nat) (hpos : 0 < setShift) (hfits : setShift + n ≤ 32) :
    IndexingPolicy (Fin (2 ^ n) × Fin assoc) setShift where
  getPossibleEntries := fun addr => (List.finRange assoc).map fun way =>
    (⟨(addr >>> setShift).toNat % 2 ^ n, Nat.mod_lt _ (Nat.two_pow_pos n)⟩, way)
  extractTag := fun addr => addr >>> (setShift + n)
  regenerateAddr := fun tag entry =>
    (tag <<< (setShift + n)) ||| (BitVec.ofNat 32 entry.1 <<< setShift).setWidth 64
  extractTag_ne := by
    intro addr heq
    have htop := congrArg (fun x : BitVec 64 => x.getLsbD 63) heq
    simp only [BitVec.getLsbD_ushiftRight, maxTag, BitVec.getLsbD_allOnes] at htop
    rw [BitVec.getLsbD_of_ge addr _ (by omega)] at htop
    cases htop
  regenerate := by
    intro addr i hi
    obtain ⟨way, _, rfl⟩ := List.mem_map.mp hi
    apply BitVec.eq_of_getLsbD_eq
    intro j hj
    rw [BitVec.getLsbD_or, BitVec.getLsbD_shiftLeft, BitVec.getLsbD_setWidth,
      BitVec.getLsbD_shiftLeft,
      BitVec.getLsbD_shiftLeft, BitVec.getLsbD_ushiftRight, BitVec.getLsbD_ushiftRight,
      BitVec.getLsbD_ofNat, Nat.testBit_mod_two_pow]
    change (_ || _ && (_ && (_ && (_ && (addr >>> setShift).getLsbD _)))) = _
    rw [BitVec.getLsbD_ushiftRight]
    by_cases hlow : j < setShift
    · simp [hlow, Nat.lt_add_right n hlow]
    · by_cases hmid : j < setShift + n
      · simp [hlow, hmid, hj, (by omega : j < 32), (by omega : j - setShift < 32),
          (by omega : j - setShift < n)]
      · have hnot : ¬j - setShift < n := by omega
        rw [Nat.add_sub_cancel' (Nat.not_lt.mp hlow), Nat.add_sub_cancel' (Nat.not_lt.mp hmid)]
        simp [hlow, hmid, hj, hnot]
  same := by
    intro addr addr' h
    refine ⟨by simp only [h], ?_⟩
    rw [BitVec.shiftRight_add, h, ← BitVec.shiftRight_add]

namespace SectorTags

def twoSectors : SectorConfig (Fin (2 ^ 0) × Fin 2) 1 where
  sectorShift := 2
  indexing := setAssociative 3 0 2 (by decide) (by decide)

theorem sector_tags_consistent_moved : ∃ s : SectorTags (Fin (2 ^ 0) × Fin 2) (2 ^ 1),
    s.Consistent twoSectors ∧ s.tagsInUse = 2 := by
  obtain ⟨s, hr, htags⟩ := Reach.exists_of_runFrom (fun s a => step twoSectors s a)
    (fun s a => a.Meant twoSectors s ∧ a.Placed twoSectors s) init
    [.allocate 0 false (0, 0), .allocate 4 false (0, 1), .move (0, 0) 0 (0, 1) 0]
    (fun s => s.tagsInUse = 2) (by decide +kernel)
  exact ⟨s, sector_tags_consistent twoSectors (by decide) hr, htags⟩

/-- One sector of 256 blocks. -/
def largeSector : SectorConfig (Fin (2 ^ 0) × Fin 1) 8 where
  sectorShift := 2
  indexing := setAssociative 10 0 1 (by decide) (by decide)

/-- The 256th block makes the counter zero. -/
theorem full_sector_invalid : ∃ s : SectorTags (Fin (2 ^ 0) × Fin 1) (2 ^ 8),
    Reach (fun s a => step largeSector s a)
      (fun s a => a.Meant largeSector s ∧ a.Placed largeSector s) init s ∧
      ¬s.Consistent largeSector := by
  obtain ⟨s, hr, hzero⟩ := Reach.exists_of_runFrom (fun s a => step largeSector s a)
    (fun s a => a.Meant largeSector s ∧ a.Placed largeSector s) init
    ((List.range 256).map fun m => .allocate (BitVec.ofNat 64 (4 * m)) false (0, 0))
    (fun s => decide ((s.sectors (0, 0)).validCounter = 0) && ((s.sectors (0, 0)).blks 0).valid)
    (by decide +kernel)
  rw [and_eq_true, decide_eq_true_iff] at hzero
  refine ⟨s, hr, fun h => ?_⟩
  have hcount := h.counter (0, 0)
  rw [hzero.1] at hcount
  have hempty := card_eq_zero.mp hcount.symm
  have hmem := SectorBlk.mem_validBlks.mpr hzero.2
  rw [hempty] at hmem
  exact notMem_empty _ hmem

end SectorTags

end Gem5.Mem
