import Gem5.IGbE.RxRing
import Gem5.Shared.SortByKey

/-!
# Checkpoints of a descriptor cache

`serialize` writes the descriptors in processing in front of the unused ones,
sorted by their sequence numbers as values of type `int`; `unserialize` rebuilds
the fetch pointer from `cachePnt` and leaves the writeback pointer at zero.
-/

namespace Gem5.IGbE

open List

namespace DescCacheGlobal

variable {α π : Type} {cfg : Config} {s : DescCacheGlobal α π} {order : List Nat}

structure Checkpoint (α : Type) where
  cachePnt : Nat
  curFetching : Nat
  wbOut : Nat
  moreToWb : Bool
  wbAlignment : BitVec 64
  usedCache : List (Desc α)
  unusedCache : List (Desc α)

/-- Conversion of a `uint64_t` to `int`. -/
def toInt (x : Nat) : Int := Int.bmod x (2 ^ 32)

def keyed (key : Nat → Int) (s : DescCacheGlobal α π) (engines : List Nat) :
    List (Int × Desc α) :=
  engines.filterMap fun i =>
    (s.processingCache i).desc.map fun d => (key (s.processingCache i).seqIdx, d)

def sortedByKey (key : Nat → Int) (s : DescCacheGlobal α π) (engines : List Nat) :
    List (Desc α) :=
  ((s.keyed key engines).insertionSort fun a b => a.1 ≤ b.1).map Prod.snd

@[irreducible] def mergedCache (s : DescCacheGlobal α π) : List (Desc α) :=
  s.sortedByKey toInt (List.range maxDMAEngineSize) ++ s.unusedCache

def serialize (s : DescCacheGlobal α π) : Checkpoint α where
  cachePnt := s.cachePnt
  curFetching := s.curFetching
  wbOut := s.wbOut
  moreToWb := s.moreToWb
  wbAlignment := s.wbAlignment
  usedCache := s.usedCache
  unusedCache := s.mergedCache

def unserialize (cp : Checkpoint α) (s : DescCacheGlobal α π) : DescCacheGlobal α π :=
  { s with
    cachePnt := cp.cachePnt
    curFetching := cp.curFetching
    wbOut := cp.wbOut
    moreToWb := cp.moreToWb
    wbAlignment := cp.wbAlignment
    fetch := { s.fetch with curDMAPnt := cp.cachePnt }
    usedCache := s.usedCache ++ cp.usedCache
    unusedCache := s.unusedCache ++ cp.unusedCache }

def reconstruct (s : DescCacheGlobal α π) : DescCacheGlobal α π :=
  { construct α π s.descBase s.descLen with
    descHead := s.descHead
    descTail := s.descTail
    hist := s.hist }

def restored (s : DescCacheGlobal α π) : DescCacheGlobal α π :=
  unserialize s.serialize s.reconstruct

def seqAhead (s : DescCacheGlobal α π) (seq : Nat) : Int :=
  ((seq + seqModulus - s.nextSeqToWriteback) % seqModulus : Nat)

def inProcess (cfg : Config) (s : DescCacheGlobal α π) : List (Desc α) :=
  s.sortedByKey s.seqAhead (List.range cfg.numDMAEngines)

/-- The live sequence numbers, as values of type `int`, do not pass from the largest
to the smallest. -/
def SeqWindow (cfg : Config) (s : DescCacheGlobal α π) : Prop :=
  (s.nextSeqToWriteback + 2 ^ 31) % 2 ^ 32 + s.descProcessing cfg ≤ 2 ^ 32

theorem toInt_eq (x : Nat) : toInt x = ((x + 2 ^ 31) % 2 ^ 32 : Nat) - (2 ^ 31 : Int) := by
  unfold toInt
  rw [Int.bmod_def]
  split <;> omega

theorem toInt_mod (x : Nat) : toInt (x % seqModulus) = toInt x := by
  rw [toInt_eq, toInt_eq]
  unfold seqModulus
  omega

namespace Processing

variable {engines : List Nat}

section

variable (key : Nat → Int)
include key

theorem keyed_getElem? (h : Processing cfg order s) {k i : Nat} (hk : order[k]? = some i) :
    ∃ d, (s.processingCache i).desc = some d ∧
      (s.keyed key order)[k]? = some (key ((s.nextSeqToWriteback + k) % seqModulus), d) := by
  obtain ⟨d, hd⟩ := Option.isSome_iff_exists.mp ((h.live_iff i).mpr (mem_of_getElem? hk))
  refine ⟨d, hd, ?_⟩
  unfold keyed
  rw [SortByKey.filterMap_getElem?, hk]
  · simp [hd, h.seq k i hk]
  · intro j hj
    simpa using (h.live_iff j).mpr hj

theorem keyed_length (h : Processing cfg order s) : (s.keyed key order).length = order.length := by
  unfold keyed
  rw [length_filterMap_eq_countP, countP_eq_length]
  intro i hi
  simpa using (h.live_iff i).mpr hi

theorem keyed_map_snd (s : DescCacheGlobal α π) (order : List Nat) :
    (s.keyed key order).map Prod.snd = s.processed order := by
  unfold keyed processed
  rw [map_filterMap]
  apply filterMap_congr
  intro i _
  cases (s.processingCache i).desc <;> rfl

theorem keyed_fst (h : Processing cfg order s) {k : Nat} {a : Int × Desc α}
    (ha : (s.keyed key order)[k]? = some a) :
    k < order.length ∧ a.1 = key ((s.nextSeqToWriteback + k) % seqModulus) := by
  have hk := (List.getElem?_eq_some_iff.mp ha).1
  rw [h.keyed_length key] at hk
  obtain ⟨d, _, hd⟩ := h.keyed_getElem? key (List.getElem?_eq_getElem hk)
  rw [ha] at hd
  exact ⟨hk, congrArg Prod.fst (Option.some.inj hd)⟩

theorem keyed_pairwise_iff (h : Processing cfg order s) :
    (s.keyed key order).Pairwise (fun a b => a.1 ≤ b.1) ↔
      ∀ j k, j < k → k < order.length → key ((s.nextSeqToWriteback + j) % seqModulus) ≤
        key ((s.nextSeqToWriteback + k) % seqModulus) := by
  have hlen := h.keyed_length key
  have hfst : ∀ k (hk : k < (s.keyed key order).length),
      ((s.keyed key order)[k]).1 = key ((s.nextSeqToWriteback + k) % seqModulus) :=
    fun k hk => (h.keyed_fst key (List.getElem?_eq_getElem hk)).2
  rw [pairwise_iff_getElem]
  constructor
  · intro hp j k hjk hk
    have hle := hp j k (by omega) (by omega) hjk
    rwa [hfst, hfst] at hle
  · intro hp j k hj hk hjk
    rw [hfst, hfst]
    exact hp j k hjk (by omega)

theorem sortedByKey_eq_iff (h : Processing cfg order s)
    (hn : (s.processed order).Nodup) (hengines : engines.Nodup) (hsub : order ⊆ engines)
    (hinj : ∀ j k, j < order.length → k < order.length →
      key ((s.nextSeqToWriteback + j) % seqModulus) =
        key ((s.nextSeqToWriteback + k) % seqModulus) → j = k) :
    s.sortedByKey key engines = s.processed order ↔
      ∀ j k, j < k → k < order.length → key ((s.nextSeqToWriteback + j) % seqModulus) ≤
        key ((s.nextSeqToWriteback + k) % seqModulus) := by
  have hperm : (s.keyed key order).Perm (s.keyed key engines) := by
    apply SortByKey.filterMap_perm h.nodup hengines hsub
    intro i _ hi
    exact (h.live_iff i).mp (by simpa using hi)
  have hfst : ∀ a ∈ s.keyed key order, ∀ b ∈ s.keyed key order, a.1 = b.1 → a = b := by
    intro a ha b hb hab
    obtain ⟨j, hj⟩ := mem_iff_getElem?.mp ha
    obtain ⟨k, hk⟩ := mem_iff_getElem?.mp hb
    obtain ⟨hjlt, hja⟩ := h.keyed_fst key hj
    obtain ⟨hklt, hkb⟩ := h.keyed_fst key hk
    obtain rfl := hinj j k hjlt hklt (by rw [← hja, ← hkb, hab])
    rw [hj] at hk
    exact Option.some.inj hk
  have hsnd : ∀ a ∈ s.keyed key order, ∀ b ∈ s.keyed key order, a.2 = b.2 → a = b := by
    rw [← keyed_map_snd key] at hn
    exact fun a ha b hb => inj_on_of_nodup_map hn ha hb
  rw [← h.keyed_pairwise_iff key, ← SortByKey.sort_eq_iff Prod.fst hperm hfst, ← keyed_map_snd key]
  constructor
  · intro hmap
    apply SortByKey.eq_of_map_eq _ hsnd hmap
    exact hperm.trans (perm_insertionSort _ _).symm
  · intro heq
    unfold sortedByKey
    rw [heq]

end

theorem inProcess_eq (h : Processing cfg order s) (hn : (s.processed order).Nodup) :
    s.inProcess cfg = s.processed order := by
  have hfirst := h.first_lt
  have hlen := h.length_lt_modulus
  have hahead : ∀ k, k < order.length →
      s.seqAhead ((s.nextSeqToWriteback + k) % seqModulus) = k := by
    intro k hk
    unfold seqAhead
    unfold seqModulus at *
    omega
  apply (h.sortedByKey_eq_iff s.seqAhead hn nodup_range
    (fun i hi => mem_range.mpr (h.lt i hi)) _).mpr
  · intro j k hjk hk
    rw [hahead j (by omega), hahead k hk]
    omega
  · intro j k hj hk hjk
    rw [hahead j hj, hahead k hk] at hjk
    omega

theorem mergedCache_eq_iff (h : Processing cfg order s) (hn : (s.processed order).Nodup) :
    s.mergedCache = s.processed order ++ s.unusedCache ↔ SeqWindow cfg s := by
  have hlen : order.length ≤ 512 := le_trans h.length_le cfg.dma_le
  have hkey : ∀ k, toInt ((s.nextSeqToWriteback + k) % seqModulus) =
      (((s.nextSeqToWriteback + 2 ^ 31) % 2 ^ 32 + k) % 2 ^ 32 : Nat) - (2 ^ 31 : Int) := by
    intro k
    rw [toInt_mod, toInt_eq, Nat.mod_add_mod, Nat.add_right_comm]
  have hsub : order ⊆ List.range maxDMAEngineSize := fun i hi =>
    mem_range.mpr (lt_of_lt_of_le (h.lt i hi) cfg.dma_le)
  unfold mergedCache SeqWindow
  rw [append_left_inj, h.descProcessing_eq,
    h.sortedByKey_eq_iff toInt hn nodup_range hsub (by
      intro j k hj hk hjk
      rw [hkey, hkey] at hjk
      omega)]
  simp only [hkey]
  have ha : (s.nextSeqToWriteback + 2 ^ 31) % 2 ^ 32 < 2 ^ 32 := Nat.mod_lt _ (by decide)
  generalize (s.nextSeqToWriteback + 2 ^ 31) % 2 ^ 32 = a at ha ⊢
  constructor
  · intro hmono
    by_contra hgt
    -- the number at which the window wraps sorts before the oldest one
    have hwrap := hmono 0 (2 ^ 32 - a) (by omega) (by omega)
    omega
  · intro hle j k hjk hk
    omega

end Processing

@[simp] theorem restored_unusedCache : s.restored.unusedCache = s.mergedCache := by
  simp [restored, unserialize, reconstruct, serialize, construct]

theorem restored_pools (cfg : Config) (s : DescCacheGlobal α π) : Pools cfg s.restored := by
  obtain ⟨⟨h₁, h₂, h₃, h₄, h₅, h₆, h₇, h₈⟩, h₉, h₁₀, h₁₁, h₁₂, _⟩ :=
    construct_pools (α := α) (π := π) cfg s.descBase s.descLen
  refine ⟨⟨h₁, h₂, h₃, h₄, h₅, h₆, h₇, h₈⟩, h₉, h₁₀, h₁₁, h₁₂, ?_⟩
  exact Nat.zero_le _

theorem restored_processing (cfg : Config) (s : DescCacheGlobal α π) :
    Processing cfg [] s.restored :=
  (Processing.construct (π := π) cfg s.descBase s.descLen).of_same_slots rfl rfl rfl

theorem Lineup.processed_nodup (h : Lineup order s) : (s.processed order).Nodup :=
  List.Nodup.of_map Desc.origin h.numbered_processed.nodup_map

section Restored
variable (h : Working cfg order s) (hw : s.wb.jobQueue = [])
include h

theorem Working.fetched_mod : s.cachePnt = s.hist.fetched.length % s.descLen ∧
    s.hist.fetched.length ≤ s.hist.posted := by
  have hissued := h.ring.issued_le
  exact ⟨h.ring.cachePnt, by omega⟩

include hw

theorem Working.restored (hhead : s.descHead = 0)
    (hmerged : s.mergedCache = s.processed order ++ s.unusedCache) : Working cfg [] s.restored := by
  have hnone := (h.pools.wb_wf.curNum_eq_zero_iff).mpr hw
  have hwritten := h.ring.written_length
  obtain ⟨hpnt, hfetched⟩ := h.fetched_mod
  have hnum := h.lineup.numbered
  have htotal := h.lineup.total
  refine ⟨restored_pools cfg s, restored_processing cfg s, ⟨?_, ?_, h.lineup.used, ?_⟩,
    ⟨h.ring.len_pos, h.ring.head, ?_, ?_, hpnt, trivial, hpnt, h.ring.tail, hfetched,
      h.ring.posted_le, h.ring.fetched, h.ring.written, ?_⟩, ?_⟩
  · have hempty : s.restored.processed [] = [] := rfl
    rw [restored_unusedCache, hmerged, hempty, append_nil, ← append_assoc]
    exact hnum
  · rw [restored_unusedCache, hmerged, length_append]
    change s.hist.retired + s.usedCache.length + 0 + _ = s.hist.fetched.length
    omega
  · exact h.lineup.used_length
  · change 0 = (s.hist.retired + 0) % s.descLen
    rw [add_zero, ← h.ring.head, hhead]
  · intro e he
    cases he
  · change s.hist.written.length = s.hist.retired + 0
    omega
  · intro hmore
    exact absurd hw (h.more hmore)

end Restored

end DescCacheGlobal

namespace RxDescCacheGlobal

open DescCacheGlobal (SeqWindow)

variable {cfg : Config} {s : RxDescCacheGlobal}

def restored (s : RxDescCacheGlobal) : RxDescCacheGlobal :=
  { construct s.descBase s.descLen with toDescCacheGlobal := s.toDescCacheGlobal.restored }

/-- What a checkpoint is to preserve: the two ring pointers agree with the caches,
the cached descriptors are the same in the same order, and every later writeback
goes to the slot the descriptor was fetched from. -/
structure RoundTrip (cfg : Config) (s : RxDescCacheGlobal) : Prop where
  fetchPnt : s.restored.fetch.curDMAPnt = (s.restored.descHead + s.restored.usedCache.length +
    s.restored.descProcessing cfg + s.restored.unusedCache.length) % s.restored.descLen
  wbPnt : s.restored.wb.curDMAPnt = s.restored.descHead
  sequence : s.restored.usedCache ++ s.restored.inProcess cfg ++ s.restored.unusedCache =
    s.usedCache ++ s.inProcess cfg ++ s.unusedCache
  later : ∀ t, Reach (step cfg) (RingAllowed cfg) s.restored t →
    ∀ x ∈ t.hist.written, x.1 = x.2.origin % s.descLen

/-- A checkpoint taken with no descriptor being written back is faithful exactly if the
head is at slot zero and the live sequence numbers do not wrap as `int`s. -/
theorem checkpoint_round_trip_iff (cfg : Config) (base len : Nat) (hlen : 0 < len)
    (s : RxDescCacheGlobal) (h : Reach (step cfg) (RingAllowed cfg) (construct base len) s)
    (hw : s.wb.jobQueue = []) :
    RoundTrip cfg s ↔ s.descHead = 0 ∧ SeqWindow cfg s.toDescCacheGlobal := by
  obtain ⟨order, hrx⟩ := RxWorking.of_reach hlen h
  have hnodup := hrx.base.lineup.processed_nodup
  have hin := hrx.base.processing.inProcess_eq hnodup
  have hempty : s.restored.inProcess cfg = [] :=
    (DescCacheGlobal.restored_processing cfg s.toDescCacheGlobal).inProcess_eq nodup_nil
  rw [← hrx.base.processing.mergedCache_eq_iff hnodup]
  constructor
  · intro hrt
    refine ⟨hrt.wbPnt.symm, ?_⟩
    have hseq := hrt.sequence
    rw [hempty, hin, append_nil, append_assoc] at hseq
    exact append_cancel_left hseq
  · rintro ⟨hhead, hmerged⟩
    have hback : RxWorking cfg len [] s.restored :=
      ⟨hrx.base.restored hw hhead hmerged,
        ⟨(Engines.construct s.descBase s.descLen).busy,
          (Engines.construct s.descBase s.descLen).rest, by simp⟩, hrx.len_eq⟩
    refine ⟨hback.base.cachePnt_eq, hhead.symm, ?_, ?_⟩
    · rw [hempty, hin, append_nil, append_assoc]
      exact congrArg _ hmerged
    · intro t ht x hx
      obtain ⟨order', hrx'⟩ := ht.invariant ⟨[], hback⟩ RxWorking.step
      rw [hrx.len_eq, ← hrx'.len_eq]
      exact hrx'.base.ring.written.2 x hx

theorem checkpoint_round_trip_two_packets :
    ∃ s, Reach (step twoEngines) (RingAllowed twoEngines) (construct 0 8) s ∧
      s.descProcessing twoEngines = 2 ∧ RoundTrip twoEngines s := by
  obtain ⟨s, hs, hp⟩ := Reach.exists_of_runFrom (step twoEngines) (RingAllowed twoEngines)
    (construct 0 8)
    [.setTail 3, .fetchDescriptors, .fetchComplete 0 [⟨0, 0⟩, ⟨0, 0⟩, ⟨0, 0⟩],
      .writePacket plainEnv ⟨[1]⟩, .writePacket plainEnv ⟨[2]⟩, .dmaEvent plainEnv 1]
    (fun s => s.descProcessing twoEngines = 2 ∧ s.wb.jobQueue = [] ∧
      s.descHead = 0 ∧ s.nextSeqToWriteback = 0) (by decide +kernel)
  obtain ⟨hproc, hw, hhead, hseq⟩ := hp
  refine ⟨s, hs, hproc, ?_⟩
  apply (checkpoint_round_trip_iff twoEngines 0 8 (by decide) s hs hw).mpr
  exact ⟨hhead, by simp [SeqWindow, hseq, hproc]⟩

/-- After one packet has been received and written back, the head is at slot one.
The restored cache starts writing back at slot zero: the second packet's
descriptor, fetched from slot one, goes to slot zero. -/
theorem checkpoint_moves_writeback :
    ∃ s, Reach (step twoEngines) (RingAllowed twoEngines) (construct 0 8) s ∧
      s.fetch.jobQueue = [] ∧ s.wb.jobQueue = [] ∧ ¬ RoundTrip twoEngines s ∧
      ∃ t, Reach (step twoEngines) (RingAllowed twoEngines) s.restored t ∧
        ∃ x ∈ t.hist.written, x.1 = 0 ∧ x.2.origin % 8 = 1 := by
  obtain ⟨s, hs, hp⟩ := Reach.exists_of_runFrom (step twoEngines) (RingAllowed twoEngines)
    (construct 0 8)
    [.setTail 1, .fetchDescriptors, .fetchComplete 0 [⟨0, 0⟩], .writePacket plainEnv ⟨[1]⟩,
      .dmaEvent plainEnv 0, .clearDone, .writeback 0, .writebackComplete 0 false]
    (fun s => s.fetch.jobQueue = [] ∧ s.wb.jobQueue = [] ∧ s.descHead = 1 ∧
      (runFrom (step twoEngines) (RingAllowed twoEngines) s.restored
        [.setTail 2, .fetchDescriptors, .fetchComplete 0 [⟨0, 0⟩], .writePacket plainEnv ⟨[2]⟩,
          .dmaEvent plainEnv 0, .writeback 0]).any
        fun t => decide (∃ x ∈ t.hist.written, x.1 = 0 ∧ x.2.origin % 8 = 1))
    (by decide +kernel)
  obtain ⟨hf, hw, hhead, hrun⟩ := hp
  obtain ⟨t, ht, hx⟩ := Reach.exists_of_runFrom _ _ s.restored _ _ hrun
  refine ⟨s, hs, hf, hw, ?_, t, ht, hx⟩
  intro hrt
  have hzero : 0 = s.descHead := hrt.wbPnt
  omega

end RxDescCacheGlobal

end Gem5.IGbE
