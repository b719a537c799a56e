import Gem5.IGbE.RxRing

/-!
# The write-back threshold of a receive queue

The receive state machine writes used descriptors back once there are `wthresh` of them. The
threshold less one is the mask of a write-back request, which clears those bits of the number
of descriptors, not of the ring position they end at.
-/

namespace Gem5.IGbE

open BitVec List Nat

namespace Rxdctl

def wthresh (rxdctl : BitVec 32) : BitVec 32 := (rxdctl.extractLsb' 16 6).setWidth 32

def gran (rxdctl : BitVec 32) : Bool := rxdctl.getLsbD 24

end Rxdctl

/-- The mask of a threshold write-back, an `Addr`. -/
def thresholdMask (cacheBlockSize wthresh : BitVec 32) : BitVec 64 :=
  if wthresh < cacheBlockSize >>> 4 then (wthresh - 1).setWidth 64
  else ((cacheBlockSize - 1) >>> 4).setWidth 64

namespace RxDescCacheGlobal

/-- The part of `rxStateMachine` that compares the used descriptors with the threshold. -/
def thresholdWriteback (cfg : Config) (cacheBlockSize rxdctl : BitVec 32) (s : RxDescCacheGlobal) :
    Sim RxDescCacheGlobal := do
  simAssert (Rxdctl.gran rxdctl)
  if (Rxdctl.wthresh rxdctl).toNat ≤ s.descUsed then
    s.onBase (DescCacheGlobal.writebackGlobal cfg
      (thresholdMask cacheBlockSize (Rxdctl.wthresh rxdctl)))
  else pure s

/-- The next `k` used descriptors are written back, all of them without a threshold, and
otherwise up to a multiple of it or to the end of the ring. -/
def WrittenBack (wthresh k : Nat) (s t : RxDescCacheGlobal) : Prop :=
  k ≤ s.waitingWb ∧
  t.hist.written = s.hist.written ++
    ((s.usedCache.drop s.wb.curNum).take k).mapIdx (fun x d => (s.wb.curDMAPnt + x, d)) ∧
  (wthresh = 0 → k = s.waitingWb) ∧
  (wthresh ≠ 0 → k ≠ 0 → s.wb.curDMAPnt + k ≠ s.descLen → (s.wb.curDMAPnt + k) % wthresh = 0)

def ThresholdRight (cfg : Config) (cacheBlockSize rxdctl : BitVec 32)
    (s : RxDescCacheGlobal) : Prop :=
  ∃ t k, s.thresholdWriteback cfg cacheBlockSize rxdctl = .ok t ∧
    WrittenBack (Rxdctl.wthresh rxdctl).toNat k s t

end RxDescCacheGlobal

section Mask

variable {cacheBlockSize w : BitVec 32} {mask x : BitVec 64} {n i j : Nat}

def keptBits (mask : BitVec 64) (n : Nat) : Nat :=
  if mask ≠ 0 then (BitVec.ofNat 64 n &&& ~~~mask).toNat else n

theorem wthresh_lt (rxdctl : BitVec 32) : (Rxdctl.wthresh rxdctl).toNat < 64 := by
  rw [Rxdctl.wthresh, toNat_setWidth]
  exact lt_of_le_of_lt (mod_le _ _) (rxdctl.extractLsb' 16 6).isLt

theorem toNat_descsInBlock (hc : cacheBlockSize.toNat = 16 * 2 ^ i) :
    (cacheBlockSize >>> 4).toNat = 2 ^ i := by
  rw [toNat_ushiftRight]
  omega

theorem thresholdMask_zero (hc : cacheBlockSize.toNat = 16 * 2 ^ i) :
    thresholdMask cacheBlockSize 0 = 0xffffffff := by
  rw [thresholdMask, if_pos]
  · rfl
  · rw [lt_def, toNat_descsInBlock hc]
    exact Nat.two_pow_pos i

theorem toNat_thresholdMask (hc : cacheBlockSize.toNat = 16 * 2 ^ i) (hw : w ≠ 0) :
    (thresholdMask cacheBlockSize w).toNat = min w.toNat (2 ^ i) - 1 := by
  have hshift := toNat_descsInBlock hc
  have hpos : 0 < 2 ^ i := Nat.two_pow_pos i
  unfold thresholdMask
  split
  · rename_i hless
    rw [lt_def, hshift] at hless
    rw [toNat_setWidth]
    have hsub : (w - 1).toNat = w.toNat - 1 := by bv_omega
    omega
  · rename_i hless
    rw [lt_def, hshift] at hless
    rw [toNat_setWidth, toNat_ushiftRight]
    have hsub : (cacheBlockSize - 1).toNat = cacheBlockSize.toNat - 1 := by bv_omega
    omega

theorem keptBits_mod (h : mask.toNat = 2 ^ j - 1) : keptBits mask n % 2 ^ j = 0 := by
  unfold keptBits
  split
  · apply eq_of_testBit_eq
    intro k
    rw [testBit_mod_two_pow, zero_testBit, Bool.and_eq_false_iff, decide_eq_false_iff_not]
    by_cases hk : k < j
    · right
      rw [testBit_toNat, getLsbD_and, getLsbD_not]
      have hmask : mask.getLsbD k = true := by
        rw [← testBit_toNat, h, testBit_two_pow_sub_one]
        exact decide_eq_true hk
      rw [hmask]
      simp
    · exact .inl hk
  · rename_i hmask
    rw [not_not.mp hmask] at h
    have hone : 2 ^ j = 1 := by
      have hpos : 0 < 2 ^ j := Nat.two_pow_pos j
      change 0 = 2 ^ j - 1 at h
      omega
    rw [hone]
    exact mod_one n

theorem keptBits_of_disjoint (hn : n < 2 ^ 64) (h : n &&& mask.toNat = 0) :
    keptBits mask n = n := by
  unfold keptBits
  split
  · have hself : BitVec.ofNat 64 n &&& ~~~mask = BitVec.ofNat 64 n := by
      apply eq_of_getLsbD_eq
      intro k hk
      have hbit : (n &&& mask.toNat).testBit k = false := by rw [h, zero_testBit]
      rw [testBit_and, testBit_toNat] at hbit
      rw [getLsbD_and, getLsbD_ofNat]
      cases hm : mask.getLsbD k <;> simp_all
    rw [hself, toNat_ofNat, mod_eq_of_lt hn]
  · rfl

end Mask

namespace RxDescCacheGlobal

open DescCacheGlobal (Working Pools Lineup OnRing Processing Placed)

variable {cfg : Config} {s t : RxDescCacheGlobal} {rxdctl cacheBlockSize : BitVec 32}
    {k n pnt i j : Nat}
  {mask : BitVec 64} {order : List Nat}

theorem maxToWb_eq (mask : BitVec 64) (h : s.wbWraps = false) :
    s.maxToWb mask = keptBits mask s.waitingWb := by
  unfold DescCacheGlobal.maxToWb keptBits
  rw [h]
  rfl

theorem WrittenBack.written_length {w : Nat} (h : WrittenBack w k s t) :
    t.hist.written.length = s.hist.written.length + k := by
  have hle : k ≤ s.usedCache.length - s.wb.curNum := h.1
  rw [h.2.1, length_append, length_mapIdx, length_take, length_drop, Nat.min_eq_left hle]

theorem thresholdRight_of_aligned (hw : Working cfg order s.toDescCacheGlobal)
    (hc : cacheBlockSize.toNat = 16 * 2 ^ i) (hgran : Rxdctl.gran rxdctl = true) (hj : j ≤ i)
    (hthresh : (Rxdctl.wthresh rxdctl).toNat = 2 ^ j) (hpnt : s.wb.curDMAPnt % 2 ^ j = 0)
    (hused : (Rxdctl.wthresh rxdctl).toNat ≤ s.descUsed) :
    ThresholdRight cfg cacheBlockSize rxdctl s := by
  have hpos : 0 < 2 ^ j := Nat.two_pow_pos j
  have hne : Rxdctl.wthresh rxdctl ≠ 0 := by
    intro hzero
    rw [hzero] at hthresh
    exact absurd hthresh hpos.ne
  have hmask : (thresholdMask cacheBlockSize (Rxdctl.wthresh rxdctl)).toNat = 2 ^ j - 1 := by
    rw [toNat_thresholdMask hc hne, hthresh, Nat.min_eq_left (Nat.pow_le_pow_right Nat.two_pos hj)]
  obtain ⟨b, hb⟩ := DescCacheGlobal.writebackGlobal_returns hw.pools.wb_wf hw.pools.wb_le
    (thresholdMask cacheBlockSize (Rxdctl.wthresh rxdctl))
  have hrun : s.thresholdWriteback cfg cacheBlockSize rxdctl =
      .ok { s with toDescCacheGlobal := b } := by
    rw [thresholdWriteback, hgran, if_pos hused, onBase, hb]
    rfl
  rw [ThresholdRight, hrun, hthresh]
  rcases DescCacheGlobal.writebackGlobal_cases hw.pools.wb_wf hw.pools.wb_le hb with
    ⟨_, rfl⟩ | ⟨e, _, _, rfl⟩ | ⟨_, _, rfl⟩
  · exact ⟨_, 0, rfl, zero_le _, by simp [DescCacheGlobal.noteWb], fun h => absurd h hpos.ne',
      fun _ h => absurd rfl h⟩
  · refine ⟨_, _, rfl, DescCacheGlobal.maxToWb_le _ _, rfl, fun h => absurd h hpos.ne', ?_⟩
    intro _ _ hend
    cases hwrap : s.wbWraps with
    | true =>
      have hlt := hw.ring.wbPnt_lt
      rw [DescCacheGlobal.maxToWb, hwrap, if_pos rfl] at hend
      omega
    | false =>
      rw [maxToWb_eq _ hwrap, add_mod, hpnt, keptBits_mod hmask]
      exact zero_mod _
  · exact ⟨_, 0, rfl, zero_le _, by simp [DescCacheGlobal.noteWb], fun h => absurd h hpos.ne',
      fun _ h => absurd rfl h⟩

/-- Descriptor `i` of a ring whose descriptors are all empty. -/
def blank (i : Nat) : Desc RxDesc := ⟨i, ⟨0, 0⟩⟩

/-- A queue that has written `pnt` descriptors back and waits with `n` used ones. -/
def atWork (pnt n : Nat) : RxDescCacheGlobal :=
  { construct 0 (pnt + n + 1) with
    descHead := pnt
    descTail := pnt + n
    usedCache := (List.range' pnt n).map blank
    cachePnt := pnt + n
    fetch := { DescDMAPool.fresh with curDMAPnt := pnt + n }
    wb := { DescDMAPool.fresh with curDMAPnt := pnt }
    hist :=
      { posted := pnt + n
        fetched := (List.range (pnt + n)).map fun i => (i, blank i)
        used := (List.range (pnt + n)).map blank
        written := (List.range pnt).map fun i => (i, blank i)
        retired := pnt } }

theorem placed_range {len : Nat} (h : n ≤ len) :
    Placed len ((List.range n).map fun i => (i, blank i)) := by
  constructor
  · unfold Numbered
    rw [map_map, length_map, length_range, range_eq_range']
    exact map_id _
  · intro x hx
    obtain ⟨i, hi, rfl⟩ := mem_map.mp hx
    exact (mod_eq_of_lt (lt_of_lt_of_le (mem_range.mp hi) h)).symm

theorem numbered_blank (a n : Nat) : Numbered Desc.origin a ((List.range' a n).map blank) := by
  unfold Numbered
  rw [map_map, length_map, length_range']
  exact map_id _

attribute [local simp] DescCacheGlobal.construct atWork construct DescDMAPool.fresh

theorem atWork_working (cfg : Config) (pnt n : Nat) :
    Working cfg [] (atWork pnt n).toDescCacheGlobal where
  pools :=
    { fetch_wf := { DescDMAPool.fresh_wf (β := RxDesc) cfg.numDescDMAEngines with }
      fetch_settled := DescDMAPool.fresh_settled (β := RxDesc)
      fetch_loaded := fun e he => by cases he
      wb_wf := { DescDMAPool.fresh_wf (β := Desc RxDesc) cfg.numDescDMAEngines with }
      wb_settled := DescDMAPool.fresh_settled (β := Desc RxDesc)
      wb_le := zero_le _ }
  processing := { Processing.construct (α := RxDesc) (π := EthPacket) cfg 0 0 with }
  lineup :=
    { numbered := by
        change Numbered Desc.origin pnt ((List.range' pnt n).map blank ++ [] ++ [])
        rw [append_nil, append_nil]
        exact numbered_blank pnt n
      total := by simp [DescCacheGlobal.processed]
      used := by
        change Numbered Desc.origin 0 ((List.range (pnt + n)).map blank)
        rw [range_eq_range']
        exact numbered_blank 0 _
      used_length := by simp }
  ring :=
    { len_pos := succ_pos _
      head := (mod_eq_of_lt (by simp)).symm
      wbPnt := (mod_eq_of_lt (by simp)).symm
      wbFits := fun e he => by cases he
      cachePnt := by simp
      blocks := trivial
      fetchPnt := by simp
      tail := by simp
      issued_le := by simp
      posted_le := by simp; omega
      fetched := placed_range (le_succ _)
      written := placed_range (by simp; omega)
      written_length := by simp }
  more := fun h => by cases h

theorem descUsed_atWork : (atWork pnt n).descUsed = n := by
  simp [DescCacheGlobal.descUsed]

theorem findFree_fresh {β : Type} (h : 0 < n) (p : Nat) :
    DescDMAPool.findFree n ({ DescDMAPool.fresh with curDMAPnt := p } : DescDMAPool β) =
      some 0 := by
  obtain ⟨m, rfl⟩ := exists_eq_succ_of_ne_zero h.ne'
  rw [DescDMAPool.findFree, range_succ_eq_map]
  rfl

theorem atWork_right (h : ThresholdRight cfg cacheBlockSize rxdctl (atWork pnt n))
    (hn : (Rxdctl.wthresh rxdctl).toNat ≤ n)
    (hmask : thresholdMask cacheBlockSize (Rxdctl.wthresh rxdctl) = mask) :
    Rxdctl.gran rxdctl = true ∧ ((Rxdctl.wthresh rxdctl).toNat = 0 → keptBits mask n = n) ∧
      ((Rxdctl.wthresh rxdctl).toNat ≠ 0 → keptBits mask n ≠ 0 →
        (pnt + keptBits mask n) % (Rxdctl.wthresh rxdctl).toNat = 0) := by
  obtain ⟨t, k, ht, hback⟩ := h
  obtain ⟨_, hgran, ht⟩ := bind_eq_ok.mp ht
  have hwaiting : (atWork pnt n).waitingWb = n := by
    simp [DescCacheGlobal.waitingWb]
  have hwrap : (atWork pnt n).wbWraps = false := by
    rw [DescCacheGlobal.wbWraps, hwaiting]
    apply decide_eq_false
    change ¬pnt + n + 1 ≤ n + pnt
    omega
  have hmax := maxToWb_eq mask hwrap
  have hkle := DescCacheGlobal.maxToWb_le (atWork pnt n).toDescCacheGlobal mask
  rw [hwaiting] at hmax
  have hused : (atWork pnt n).usedCache.length = n := descUsed_atWork
  rw [descUsed_atWork, if_pos hn, hmask] at ht
  obtain ⟨b, hb, rfl⟩ := map_eq_ok.mp ht
  -- the number of descriptors that the record says were written
  have hk : k = keptBits mask n := by
    have hpools := (atWork_working cfg pnt n).pools
    have hlen : b.hist.written.length = _ := hback.written_length
    rcases DescCacheGlobal.writebackGlobal_cases hpools.wb_wf hpools.wb_le hb with
      ⟨hzero, rfl⟩ | ⟨e, _, _, rfl⟩ | ⟨hnone, _, _⟩
    · change (atWork pnt n).hist.written.length = _ at hlen
      omega
    · change ((atWork pnt n).hist.written ++ _).length = _ at hlen
      rw [length_append, length_mapIdx, length_take] at hlen
      change _ + min ((atWork pnt n).maxToWb mask) ((atWork pnt n).usedCache.length - 0) = _ at hlen
      omega
    · rw [show (atWork pnt n).wb.findFree _ = _ from findFree_fresh cfg.descDMA_pos pnt] at hnone
      cases hnone
  obtain ⟨_, _, hall, haligned⟩ := hback
  rw [hwaiting] at hall
  subst hk
  refine ⟨simAssert_eq_ok.mp hgran, hall, fun hne hpos => haligned hne hpos ?_⟩
  change pnt + keptBits mask n ≠ pnt + n + 1
  omega

theorem threshold_cases : ∀ w < 64, w ≠ 0 →
    (∃ j < 6, w = 2 ^ j) ∨ ∃ a < 6, 2 ^ a < w ∧ (64 + 2 ^ a) &&& (w - 1) = 0 := by
  decide +kernel

theorem disjoint_low_mask {a : Nat} (ha : a < 6) : (64 + 2 ^ a) &&& (2 ^ a - 1) = 0 := by
  revert a
  decide

theorem disjoint_small {m : Nat} (hm : m < 64) : 64 &&& m = 0 := by
  revert m
  decide

theorem not_both_aligned {w d : Nat} (hd : 0 < d) (hlt : d < w) (h : (pnt + 64) % w = 0)
    (h' : (pnt + (64 + d)) % w = 0) : False := by
  rw [← Nat.add_assoc, Nat.add_mod, h, Nat.zero_add, Nat.mod_mod, Nat.mod_eq_of_lt hlt] at h'
  omega

theorem aligned_of_thresholdRight (hc : cacheBlockSize.toNat = 16 * 2 ^ i)
    (h : ∀ n, (Rxdctl.wthresh rxdctl).toNat ≤ n →
      ThresholdRight cfg cacheBlockSize rxdctl (atWork pnt n)) : Rxdctl.gran rxdctl = true ∧
      ∃ j ≤ i, (Rxdctl.wthresh rxdctl).toNat = 2 ^ j ∧ pnt % 2 ^ j = 0 := by
  have hlt := wthresh_lt rxdctl
  obtain ⟨hgran, hzero, haligned⟩ := atWork_right (h 64 hlt.le) hlt.le rfl
  refine ⟨hgran, ?_⟩
  by_cases hw : Rxdctl.wthresh rxdctl = 0
  · have hall := hzero (by rw [hw]; rfl)
    rw [hw, thresholdMask_zero hc] at hall
    exact absurd hall (by decide)
  have hne : (Rxdctl.wthresh rxdctl).toNat ≠ 0 := fun heq => hw (eq_of_toNat_eq heq)
  have hmask := toNat_thresholdMask hc hw
  have hkept : keptBits (thresholdMask cacheBlockSize (Rxdctl.wthresh rxdctl)) 64 = 64 :=
    keptBits_of_disjoint (by decide) (disjoint_small (by omega))
  rw [hkept] at haligned
  have hfull := haligned hne (by decide)
  -- a second number of descriptors, a little larger
  have hmore : ∀ d, 0 < d → d < (Rxdctl.wthresh rxdctl).toNat →
      (64 + d) &&& (min (Rxdctl.wthresh rxdctl).toNat (2 ^ i) - 1) = 0 → False := by
    intro d hd hless hdisjoint
    obtain ⟨_, _, haligned'⟩ := atWork_right (h (64 + d) (by omega)) (by omega) rfl
    rw [keptBits_of_disjoint (by omega) (by rw [hmask, hdisjoint])] at haligned'
    exact not_both_aligned hd hless hfull (haligned' hne (by omega))
  rcases le_or_gt (Rxdctl.wthresh rxdctl).toNat (2 ^ i) with hle | hgt
  · rw [Nat.min_eq_left hle] at hmore
    rcases threshold_cases _ hlt hne with ⟨j, hj, hpow⟩ | ⟨a, _, hless, hdisjoint⟩
    · rw [hpow] at hle hfull
      refine ⟨j, (Nat.pow_le_pow_iff_right (by decide)).mp hle, hpow, ?_⟩
      have hdvd : 2 ^ j ∣ 64 := Nat.pow_dvd_pow 2 (show j ≤ 6 from hj.le)
      exact mod_eq_zero_of_dvd ((Nat.dvd_add_left hdvd).mp (dvd_of_mod_eq_zero hfull))
    · exact (hmore _ (Nat.two_pow_pos a) hless hdisjoint).elim
  · have hi : i < 6 := (Nat.pow_lt_pow_iff_right (by decide)).mp (show 2 ^ i < 2 ^ 6 by omega)
    rw [Nat.min_eq_right hgt.le] at hmore
    exact (hmore _ (Nat.two_pow_pos i) hgt (disjoint_low_mask hi)).elim

/-- The write-back at the threshold ends at a multiple of it from every state at a ring position
exactly when the threshold is a power of two of at most a cache block of descriptors, and the
position is a multiple of it already. -/
theorem threshold_writeback_aligned (cfg : Config) (cacheBlockSize rxdctl : BitVec 32)
    (i pnt : Nat) (hc : cacheBlockSize.toNat = 16 * 2 ^ i) :
    (∀ order (s : RxDescCacheGlobal), Working cfg order s.toDescCacheGlobal →
      s.wb.curDMAPnt = pnt → (Rxdctl.wthresh rxdctl).toNat ≤ s.descUsed →
        ThresholdRight cfg cacheBlockSize rxdctl s) ↔
    Rxdctl.gran rxdctl = true ∧
      ∃ j ≤ i, (Rxdctl.wthresh rxdctl).toNat = 2 ^ j ∧ pnt % 2 ^ j = 0 := by
  constructor
  · intro h
    apply aligned_of_thresholdRight hc
    intro n hn
    refine h [] (atWork pnt n) (atWork_working cfg pnt n) rfl ?_
    rw [descUsed_atWork]
    exact hn
  · rintro ⟨hgran, j, hj, hthresh, hpnt⟩ order s hw rfl hused
    exact thresholdRight_of_aligned hw hc hgran hj hthresh hpnt hused

theorem threshold_writeback_aligned_four :
    ThresholdRight twoEngines 64 0x01040000 (atWork 8 6) :=
  (threshold_writeback_aligned twoEngines 64 0x01040000 2 8 rfl).mpr
    ⟨rfl, 2, le_rfl, rfl, rfl⟩ [] _ (atWork_working twoEngines 8 6) rfl (by decide)

theorem not_thresholdRight (ht : s.thresholdWriteback cfg cacheBlockSize rxdctl = .ok t)
    (hlen : t.hist.written.length = s.hist.written.length + k)
    (h : ¬(((Rxdctl.wthresh rxdctl).toNat = 0 → k = s.waitingWb) ∧
      ((Rxdctl.wthresh rxdctl).toNat ≠ 0 → k ≠ 0 → s.wb.curDMAPnt + k ≠ s.descLen →
        (s.wb.curDMAPnt + k) % (Rxdctl.wthresh rxdctl).toNat = 0))) :
    ¬ThresholdRight cfg cacheBlockSize rxdctl s := by
  rintro ⟨u, k', hu, hback⟩
  obtain rfl := eq_of_ok ht hu
  obtain rfl : k' = k := Nat.add_left_cancel (hback.written_length.symm.trans hlen)
  exact h hback.2.2

/-- One packet is received and written back by force, then two more. With a threshold of two
the write-back goes from slot one to slot three, and without a threshold it writes nothing. -/
theorem threshold_writeback_misaligned :
    ∃ s, Reach (step twoEngines) (RingAllowed twoEngines) (construct 0 8) s ∧ 2 ≤ s.descUsed ∧
      ¬ThresholdRight twoEngines 64 0x01020000 s ∧ ¬ThresholdRight twoEngines 64 0x01000000 s := by
  obtain ⟨s, hs, hp⟩ := Reach.exists_of_runFrom (step twoEngines) (RingAllowed twoEngines)
    (construct 0 8)
    [.setTail 4, .fetchDescriptors, .fetchComplete 0 [⟨0, 0⟩, ⟨0, 0⟩, ⟨0, 0⟩, ⟨0, 0⟩],
      .writePacket plainEnv ⟨[1]⟩, .dmaEvent plainEnv 0, .clearDone, .writeback 0,
      .writebackComplete 0 false, .writePacket plainEnv ⟨[2]⟩, .dmaEvent plainEnv 0, .clearDone,
      .writePacket plainEnv ⟨[3]⟩, .dmaEvent plainEnv 0]
    (fun s => decide (2 ≤ s.descUsed ∧ s.wb.curDMAPnt = 1 ∧ s.descLen = 8 ∧ s.waitingWb = 2) &&
      (okAnd (s.thresholdWriteback twoEngines 64 0x01020000)
        (fun t => t.hist.written.length == s.hist.written.length + 2) &&
      okAnd (s.thresholdWriteback twoEngines 64 0x01000000)
        (fun t => t.hist.written.length == s.hist.written.length + 0))) (by decide +kernel)
  rw [Bool.and_eq_true, Bool.and_eq_true, decide_eq_true_iff, okAnd_iff, okAnd_iff] at hp
  obtain ⟨⟨hused, hpnt, hlen, hwaiting⟩, ⟨t, ht, htwo⟩, ⟨u, hu, hnone⟩⟩ := hp
  refine ⟨s, hs, hused, ?_, ?_⟩
  · refine not_thresholdRight ht (beq_iff_eq.mp htwo) fun h => ?_
    rw [hpnt, hlen] at h
    exact absurd (h.2 (by decide) (by decide) (by decide)) (by decide)
  · refine not_thresholdRight hu (beq_iff_eq.mp hnone) fun h => ?_
    rw [hwaiting] at h
    exact absurd (h.1 (by decide)) (by decide)

end RxDescCacheGlobal

end Gem5.IGbE
