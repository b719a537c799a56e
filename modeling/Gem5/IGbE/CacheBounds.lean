import Gem5.IGbE.RxRing
import Gem5.IGbE.TxQueue

/-!
# Bounds of the descriptor cache

What a queue holds and has under way fits into its cache, whatever the guest writes to the
tail. A tail behind the end of the ring makes a fetch run over that end; with tails on the
ring every DMA of descriptors stays inside, in whatever order the guest moves the tail.
-/

namespace Gem5.IGbE

/-- Each DMA under way moves the descriptors `b` to `b + k` of the ring at `base`, with `R b k`. -/
def DescDMAPool.Requests {β : Type} (base : Nat) (R : Nat → Nat → Prop) (p : DescDMAPool β) :
    Prop :=
  ∀ e, p.InFlight e → ∃ b k, p.engines e = ⟨base + b * sizeofDesc, k * sizeofDesc, k⟩ ∧ R b k

namespace DescDMAPool

variable {β : Type} {p q : DescDMAPool β} {base e k : Nat} {R : Nat → Nat → Prop}

theorem Requests.of_engines (h : p.Requests base R) (heq : q.engines = p.engines) :
    q.Requests base R := by
  intro e he
  unfold InFlight requested at he
  rw [heq] at he ⊢
  exact h e he

theorem Requests.of_update {r : DescDMAEngine} (h : p.Requests base R)
    (heq : q.engines = Function.update p.engines e r)
    (hr : r.numDescDMAing ≠ 0 → ∃ b k, r = ⟨base + b * sizeofDesc, k * sizeofDesc, k⟩ ∧ R b k) :
    q.Requests base R := by
  intro i hi
  unfold InFlight requested at hi
  rw [heq] at hi ⊢
  by_cases hie : i = e
  · subst hie
    rw [Function.update_self] at hi ⊢
    exact hr hi
  · rw [Function.update_of_ne hie] at hi ⊢
    exact h i hi

theorem Requests.started (h : p.Requests base R) (ringLen : Nat) (data : List β)
    (hR : R p.curDMAPnt k) : (p.started base ringLen e k data).Requests base R :=
  h.of_update rfl fun _ => ⟨p.curDMAPnt, k, rfl, hR⟩

theorem Requests.clear (h : p.Requests base R) : (p.clear e).Requests base R :=
  h.of_update rfl fun hne => absurd rfl hne

theorem fresh_requests : (fresh : DescDMAPool β).Requests base R :=
  fun _ he => absurd rfl he

end DescDMAPool

namespace DescCacheGlobal

variable {α π : Type} {cfg : Config} {s t : DescCacheGlobal α π} {order : List Nat} {e len : Nat}
  {m : BitVec 64} {R : Nat → Nat → Prop}

theorem Frame.descTail (h : Frame s t) : t.descTail = s.descTail :=
  congrArg Untouched.descTail h

def Moving (R : Nat → Nat → Prop) (s : DescCacheGlobal α π) : Prop :=
  s.fetch.Requests s.descBase R ∧ s.wb.Requests s.descBase R

namespace Moving

theorem construct (base len : Nat) : Moving R (construct α π base len) :=
  ⟨DescDMAPool.fresh_requests, DescDMAPool.fresh_requests⟩

theorem of_engines (h : Moving R s) (hbase : t.descBase = s.descBase)
    (hfetch : t.fetch.engines = s.fetch.engines) (hwb : t.wb.engines = s.wb.engines) :
    Moving R t := by
  refine ⟨?_, ?_⟩
  · rw [hbase]
    exact h.1.of_engines hfetch
  · rw [hbase]
    exact h.2.of_engines hwb

theorem fetchStarted {k : Nat} (h : Moving R s) (hR : R s.fetch.curDMAPnt k) :
    Moving R (s.fetchStarted e k) :=
  ⟨h.1.started s.descLen [] hR, h.2⟩

theorem writebackGlobal (h : Moving R s) (hs : Steady cfg order s)
    (hR : R s.wb.curDMAPnt (s.maxToWb m)) (ht : writebackGlobal cfg m s = .ok t) : Moving R t := by
  rcases writebackGlobal_cases hs.pools.wb_wf hs.pools.wb_le ht with
    ⟨_, rfl⟩ | ⟨e, _, _, rfl⟩ | ⟨_, _, rfl⟩
  · exact h
  · exact ⟨h.1, h.2.started s.descLen _ hR⟩
  · exact h

theorem fetchComplete {data : List α} (h : Moving R s) (hs : Steady cfg order s)
    (he : s.fetch.InFlight e) (ht : fetchComplete cfg e data s = .ok t) : Moving R t := by
  obtain ⟨hm, _⟩ := (hs.pools.fetch_wf.inFlight_iff e).mp he
  rw [fetchComplete_eq (hs.pools.fetch_wf.lt hm) hm] at ht
  have hlanded : Moving R (s.fetchLanded e data) :=
    ⟨(DescDMAPool.Requests.clear (e := e) h.1).of_engines rfl, h.2⟩
  split at ht
  · apply InOrder.drainLoop_invariant (P := fun u : DescCacheGlobal α π => Moving R u) _ hlanded ht
    intro j u v hu hv
    obtain ⟨k, _, hv⟩ := bind_eq_ok.mp hv
    obtain ⟨_, _, hv⟩ := bind_eq_ok.mp hv
    obtain ⟨_, _, rfl⟩ := map_eq_ok.mp hv
    exact hu.of_engines rfl rfl rfl
  · cases ht
    exact hlanded

theorem wbFinish (h : Moving R s) (ht : wbFinish e s = .ok t) : Moving R t := by
  obtain ⟨_, _, ht⟩ := bind_eq_ok.mp ht
  have hcleared : Moving R { s with wb := (s.wb.clear e).markDone e } :=
    ⟨h.1, (DescDMAPool.Requests.clear (e := e) h.2).of_engines rfl⟩
  split at ht
  · apply InOrder.drainLoop_invariant (P := fun u : DescCacheGlobal α π => Moving R u) _ hcleared ht
    intro j u v hu hv
    obtain ⟨k, _, hv⟩ := bind_eq_ok.mp hv
    obtain ⟨_, _, hv⟩ := bind_eq_ok.mp hv
    obtain ⟨_, _, rfl⟩ := map_eq_ok.mp hv
    exact hu.of_engines rfl rfl rfl
  · cases ht
    exact hcleared

end Moving

def Capacity (cfg : Config) (s : DescCacheGlobal α π) : Prop :=
  s.usedCache.length + s.descProcessing cfg + s.unusedCache.length + s.fetch.curNum ≤ cfg.size ∧
    Moving (fun _ k => k ≤ cfg.size) s

def StaysOnRing (s : DescCacheGlobal α π) : Prop :=
  Moving (fun b k => b + k ≤ s.descLen) s ∧ s.cachePnt < s.descLen

/-- `Capacity` with the packet engines at work in a row. -/
def Sized (cfg : Config) (order : List Nat) (s : DescCacheGlobal α π) : Prop :=
  Within cfg order s ∧ Moving (fun _ k => k ≤ cfg.size) s

namespace Sized

theorem fetchDescriptorsGlobal (h : Sized cfg order s) (hs : Steady cfg order s)
    (ht : fetchDescriptorsGlobal cfg s = .ok t) : Sized cfg order t := by
  refine ⟨h.1.fetchDescriptorsGlobal hs ht, ?_⟩
  rcases fetchDescriptorsGlobal_cases hs.pools.fetch_wf ht with
    rfl | ⟨e, k, room, _, _, _, hfree, _, rfl⟩
  · exact h.2
  · exact h.2.fetchStarted (le_trans hfree (Nat.sub_le _ _))

theorem capacity (h : Sized cfg order s) (hs : Steady cfg order s) : Capacity cfg s := by
  refine ⟨?_, h.2⟩
  have hwithin := h.1
  unfold Within at hwithin
  rw [hs.processing.descProcessing_eq]
  omega

theorem construct (cfg : Config) (base len : Nat) : Sized cfg [] (construct α π base len) :=
  ⟨Within.construct cfg base len, Moving.construct base len⟩

theorem maxToWb_le_size (h : Within cfg order s) (m : BitVec 64) : s.maxToWb m ≤ cfg.size := by
  have hle := s.maxToWb_le m
  unfold waitingWb at hle
  unfold Within at h
  omega

theorem writebackGlobal (h : Sized cfg order s) (hs : Steady cfg order s)
    (ht : writebackGlobal cfg m s = .ok t) : Sized cfg order t := by
  refine ⟨?_, h.2.writebackGlobal hs (maxToWb_le_size h.1 m) ht⟩
  obtain ⟨_, _, _, _, rfl⟩ := writebackGlobal_shape ht
  exact h.1

theorem cacheMoves {direct : List Nat → Prop}
    {arrives : DescCacheGlobal α π → Nat → List α → Prop} :
    CacheMoves (α := α) (π := π) cfg direct arrives (Sized cfg) := by
  have hw : CacheMoves (α := α) (π := π) cfg direct arrives (Within cfg) := Within.cacheMoves
  constructor
  · exact fun hs h hlt hfree hu => ⟨hw.beginProcessing hs h.1 hlt hfree hu, h.2⟩
  · exact fun h e packet => ⟨hw.setPkt h.1 e packet, h.2⟩
  · exact fun h e body => ⟨hw.setBody h.1 e body, h.2⟩
  · intro order s t e front rest hs h he hr hset
    refine ⟨hw.retire hs h.1 he hr hset, ?_⟩
    rw [hr.eq]
    exact h.2
  · exact fun h hd hu body => ⟨hw.useDirectly h.1 hd hu body, h.2⟩
  · exact fun hs h ht => h.writebackGlobal hs ht
  · exact fun hs h ht => h.fetchDescriptorsGlobal hs ht
  · exact fun hs h he hdata harr ht =>
      ⟨hw.fetchComplete hs h.1 he hdata harr ht, h.2.fetchComplete hs he ht⟩
  · intro order s t e f hs h he ht
    exact hs.writebackComplete_induct he
      (fun v hv => ⟨h.1.wbFinish hs he hv, h.2.wbFinish hv⟩)
      (fun _ _ _ hu h hv => h.writebackGlobal hu hv)
      (fun _ _ hu h hv => h.fetchDescriptorsGlobal hu hv) ht

end Sized

structure Bounded (len : Nat) (s : DescCacheGlobal α π) : Prop where
  descLen : s.descLen = len
  tail : s.descTail ≤ len
  cache : FetchOnRing s s.hist.fetched.length
  fetchPnt : s.fetch.curDMAPnt = (s.hist.fetched.length + s.fetch.curNum) % s.descLen
  wbPnt : s.wb.curDMAPnt < s.descLen
  moving : Moving (fun b k => b + k ≤ len) s

namespace Bounded

theorem construct (base : Nat) (hlen : 0 < len) : Bounded len (construct α π base len) where
  descLen := rfl
  tail := Nat.zero_le _
  cache := ⟨hlen, (Nat.zero_mod len).symm, trivial⟩
  fetchPnt := (Nat.zero_mod len).symm
  wbPnt := hlen
  moving := Moving.construct base len

section

variable (h : Bounded len s)
include h

theorem of_same_ring
    (heq : (t.descBase, t.descLen, t.descTail, t.cachePnt, t.fetch, t.wb, t.hist.fetched) =
      (s.descBase, s.descLen, s.descTail, s.cachePnt, s.fetch, s.wb, s.hist.fetched)) :
    Bounded len t := by
  simp only [Prod.mk.injEq] at heq
  obtain ⟨hbase, hlen, htail, hcache, hfetch, hwb, hfetched⟩ := heq
  refine ⟨hlen.trans h.descLen, ?_, ?_, ?_, ?_, ?_⟩
  · rw [htail]
    exact h.tail
  · rw [FetchOnRing, hlen, hcache, hfetch, hfetched]
    exact h.cache
  · rw [hlen, hfetch, hfetched]
    exact h.fetchPnt
  · rw [hwb, hlen]
    exact h.wbPnt
  · exact h.moving.of_engines hbase (congrArg _ hfetch) (congrArg _ hwb)

theorem setTail {tail : Nat} (htail : tail ≤ len) : Bounded len (s.setTail tail) :=
  ⟨h.descLen, htail, h.cache, h.fetchPnt, h.wbPnt, h.moving⟩

theorem staysOnRing : StaysOnRing s := by
  refine ⟨?_, ?_⟩
  · rw [h.descLen]
    exact h.moving
  · rw [h.cache.2.1]
    exact RingIndex.slot_lt h.cache.1 _

theorem fetchComplete_returns {data : List α} (hs : Steady cfg order s) (he : s.fetch.InFlight e)
    (hdata : data.length = s.fetch.requested e) : ∃ t, fetchComplete cfg e data s = .ok t :=
  DescCacheGlobal.fetchComplete_returns hs.pools.fetch_wf hs.pools.fetch_loaded he hdata h.cache

theorem fetch_fits {room : Nat} (hroom : s.maxToFetch = .ok room) :
    s.fetch.curDMAPnt + room ≤ len := by
  have hlt : s.fetch.curDMAPnt < s.descLen := by
    rw [h.fetchPnt]
    exact RingIndex.slot_lt h.cache.1 _
  have htail := h.tail
  rw [h.descLen] at hlt
  unfold maxToFetch at hroom
  split at hroom
  · cases hroom
    omega
  · obtain ⟨_, _, rfl⟩ := map_eq_ok.mp hroom
    rw [h.descLen]
    omega

theorem fetchDescriptorsGlobal (hs : Steady cfg order s)
    (ht : fetchDescriptorsGlobal cfg s = .ok t) : Bounded len t := by
  rcases fetchDescriptorsGlobal_cases hs.pools.fetch_wf ht with
    rfl | ⟨e, k, room, he, _, hkr, _, hroom, rfl⟩
  · exact h
  · have hfits := h.fetch_fits hroom
    have hend : s.fetch.curDMAPnt + k ≤ s.descLen := by
      rw [h.descLen]
      omega
    obtain ⟨hcache, hpnt⟩ := h.cache.fetchStarted (k := k) hs.pools.fetch_wf he h.fetchPnt hend
    exact ⟨h.descLen, h.tail, hcache, hpnt, h.wbPnt, h.moving.fetchStarted (by omega)⟩

theorem writeback_fits (m : BitVec 64) : s.wb.curDMAPnt + s.maxToWb m ≤ len := by
  rw [← h.descLen]
  exact add_maxToWb_le h.wbPnt m

theorem writebackGlobal (hs : Steady cfg order s)
    (ht : writebackGlobal cfg m s = .ok t) : Bounded len t := by
  have hfits := h.writeback_fits m
  have hmoving := h.moving.writebackGlobal hs hfits ht
  rcases writebackGlobal_cases hs.pools.wb_wf hs.pools.wb_le ht with
    ⟨_, rfl⟩ | ⟨e, _, _, rfl⟩ | ⟨_, _, rfl⟩
  · exact h.of_same_ring rfl
  · refine ⟨h.descLen, h.tail, h.cache, h.fetchPnt, ?_, hmoving⟩
    rw [← h.descLen] at hfits
    change RingIndex.advance s.descLen s.wb.curDMAPnt (s.maxToWb m) < s.descLen
    unfold RingIndex.advance
    split <;> omega
  · exact h.of_same_ring rfl

theorem fetchComplete {data : List α} (hs : Steady cfg order s)
    (he : s.fetch.InFlight e) (hdata : data.length = s.fetch.requested e)
    (ht : fetchComplete cfg e data s = .ok t) : Bounded len t := by
  have hframe := fetchComplete_frame ht
  have hd := (hs.pools.fetchComplete he hdata ht).2
  obtain ⟨news, heq, hsum, _, hring⟩ := hd.eq
  have hwb : t.wb = s.wb := by rw [heq]; rfl
  have hfetched : t.hist.fetched = s.hist.fetched ++ news := by rw [heq]; rfl
  refine ⟨hframe.descLen.trans h.descLen, ?_, (hring h.cache).1, ?_, ?_,
    h.moving.fetchComplete hs he ht⟩
  · rw [hframe.descTail]
    exact h.tail
  · have hsame : t.hist.fetched.length + t.fetch.curNum =
        s.hist.fetched.length + s.fetch.curNum := by
      rw [hfetched, List.length_append]
      omega
    rw [hsame, hframe.descLen, hd.pnt]
    exact h.fetchPnt
  · rw [hwb, hframe.descLen]
    exact h.wbPnt

theorem wbFinish (hs : Steady cfg order s) (he : s.wb.InFlight e)
    (ht : wbFinish e s = .ok t) : Bounded len t := by
  have hframe := wbFinish_frame ht
  obtain ⟨v, hv, _, hd⟩ := hs.pools.wbFinish he
  obtain rfl := eq_of_ok hv ht
  obtain ⟨d, heq, _⟩ := hd.eq
  have hkept : v.cachePnt = s.cachePnt ∧ v.fetch = s.fetch ∧ v.hist.fetched = s.hist.fetched := by
    rw [heq]
    exact ⟨rfl, rfl, rfl⟩
  obtain ⟨hcache, hfetch, hfetched⟩ := hkept
  refine ⟨hframe.descLen.trans h.descLen, ?_, ?_, ?_, ?_, h.moving.wbFinish hv⟩
  · rw [hframe.descTail]
    exact h.tail
  · rw [FetchOnRing, hframe.descLen, hcache, hfetch, hfetched]
    exact h.cache
  · rw [hframe.descLen, hfetch, hfetched]
    exact h.fetchPnt
  · rw [hd.pnt, hframe.descLen]
    exact h.wbPnt

end

theorem cacheMoves {direct : List Nat → Prop}
    {arrives : DescCacheGlobal α π → Nat → List α → Prop} :
    CacheMoves (α := α) (π := π) cfg direct arrives fun _ => Bounded len where
  beginProcessing := fun _ h _ _ _ => h.of_same_ring rfl
  setPkt := fun h _ _ => h.of_same_ring rfl
  setBody := fun h _ _ => h.of_same_ring rfl
  retire := fun _ h _ hr _ => h.of_same_ring (by
    rw [hr.eq]
    rfl)
  useDirectly := fun h _ _ _ => h.of_same_ring rfl
  writebackGlobal := fun hs h ht => h.writebackGlobal hs ht
  fetchDescriptorsGlobal := fun hs h ht => h.fetchDescriptorsGlobal hs ht
  fetchComplete := fun hs h he hdata _ ht => h.fetchComplete hs he hdata ht
  writebackComplete := fun hs h he ht =>
    hs.writebackComplete_induct he (fun _ hv => h.wbFinish hs he hv)
      (fun _ _ _ hu h hv => h.writebackGlobal hu hv)
      (fun _ _ hu h hv => h.fetchDescriptorsGlobal hu hv) ht

end Bounded

end DescCacheGlobal

namespace RxDescCacheGlobal

open DescCacheGlobal (Steady CacheMoves Sized Bounded Moving)

variable {cfg : Config} {s t : RxDescCacheGlobal} {a : RxAct} {order : List Nat} {len : Nat}

def CacheAllowed (s : RxDescCacheGlobal) : RxAct → Prop
  | .fetchComplete e data => s.fetch.InFlight e ∧ data.length = s.fetch.requested e
  | .writebackComplete e _ => s.wb.InFlight e
  | .areaWrite _ _ => False
  | .reset => False
  | _ => True

instance (s : RxDescCacheGlobal) (a : RxAct) : Decidable (CacheAllowed s a) :=
  match a with
  | .fetchComplete _ _ => inferInstanceAs (Decidable (_ ∧ _))
  | .writebackComplete _ _ => inferInstanceAs (Decidable (DescDMAPool.InFlight _ _))
  | .areaWrite _ _ | .reset => isFalse id
  | .setTail _ | .fetchDescriptors | .writePacket _ _ | .dmaEvent _ _ | .clearDone
  | .writeback _ => isTrue trivial

def TailOnRing (s : RxDescCacheGlobal) : RxAct → Prop
  | .setTail tail => tail ≤ s.descLen
  | _ => True

instance (s : RxDescCacheGlobal) (a : RxAct) : Decidable (TailOnRing s a) :=
  match a with
  | .setTail _ => inferInstanceAs (Decidable (_ ≤ _))
  | .fetchDescriptors | .fetchComplete _ _ | .writePacket _ _ | .dmaEvent _ _ | .clearDone
  | .writeback _ | .writebackComplete _ _ | .areaWrite _ _ | .reset => isTrue trivial

section Moves
variable {direct : List Nat → Prop}
  {arrives : DescCacheGlobal RxDesc EthPacket → Nat → List RxDesc → Prop}
  {Q : List Nat → DescCacheGlobal RxDesc EthPacket → Prop}

theorem writePacket_keeps {accepted : Bool} {env : RxEnv} {packet : EthPacket}
    (h : CacheMoves cfg direct arrives Q) (hs : Steady cfg order s.toDescCacheGlobal)
    (hq : Q order s.toDescCacheGlobal)
    (ht : s.writePacketGlobal cfg env packet = .ok (accepted, t)) :
    ∃ order, Steady cfg order t.toDescCacheGlobal ∧ Q order t.toDescCacheGlobal := by
  rcases writePacketGlobal_cases ht with rfl | ⟨i, d, eng, body, hi, ⟨rest, hu⟩, rfl⟩
  · exact ⟨order, hs, hq⟩
  · obtain ⟨hlt, _, _, hdesc, _, _⟩ := getFreeDMAEngine_some hi
    have hbegun := h.withSteady.beginProcessing hs ⟨hs, hq⟩ hlt hdesc hu
    exact ⟨order ++ [i], h.withSteady.setBody (h.withSteady.setPkt hbegun i _) i body⟩

theorem dmaEvent_keeps {env : RxEnv} {i : Nat} (h : CacheMoves cfg direct arrives Q)
    (hs : Steady cfg order s.toDescCacheGlobal) (hq : Q order s.toDescCacheGlobal)
    (ht : s.dmaEvent cfg env i = .ok t) :
    ∃ order, Steady cfg order t.toDescCacheGlobal ∧ Q order t.toDescCacheGlobal := by
  obtain ⟨eng, body, c, _, ⟨_, rfl⟩ | ⟨_, _, hslot, b, hb, rfl⟩⟩ := dmaEvent_cases ht
  · exact ⟨order, h.withSteady.setBody ⟨hs, hq⟩ i body⟩
  · -- marking the descriptor and taking the packet from its engine commute
    have hfreed : Steady cfg order ((s.setBody i body).setPkt i none) ∧
        Q order ((s.setBody i body).setPkt i none) :=
      h.withSteady.setPkt (h.withSteady.setBody ⟨hs, hq⟩ i body) i none
    have hlive : (((s.setBody i body).setPkt i none).processingCache i).desc.isSome = true := by
      simpa [DescCacheGlobal.setPkt, DescCacheGlobal.setBody] using hslot
    obtain ⟨u, front, rest, hu, hm, hr, hset⟩ := hfreed.1.manageUsedCache hlive
    obtain rfl := eq_of_ok hu hb
    exact ⟨rest, h.withSteady.retire hfreed.1 hfreed hm hr hset⟩

theorem step_keeps (h : CacheMoves cfg direct (fun _ _ _ => True) Q)
    (hk : ∃ order, Steady cfg order s.toDescCacheGlobal ∧ Q order s.toDescCacheGlobal)
    (ha : CacheAllowed s a)
    (htail : ∀ tail, a = .setTail tail → ∀ order, Q order s.toDescCacheGlobal →
      Q order (s.toDescCacheGlobal.setTail tail)) (hs : step cfg s a = .ok t) :
    ∃ order, Steady cfg order t.toDescCacheGlobal ∧ Q order t.toDescCacheGlobal := by
  obtain ⟨order, hq⟩ := hk
  cases a with
  | setTail tail =>
    cases hs
    exact ⟨order, hq.1.of_same (hq.1.pools.of_same_engines rfl rfl le_rfl) rfl,
      htail tail rfl order hq.2⟩
  | fetchDescriptors =>
    obtain ⟨b, hb, rfl⟩ := onBase_eq_ok.mp hs
    exact ⟨order, h.withSteady.fetchDescriptorsGlobal hq.1 hq hb⟩
  | fetchComplete e data =>
    obtain ⟨b, hb, rfl⟩ := onBase_eq_ok.mp hs
    exact ⟨order, h.withSteady.fetchComplete hq.1 hq ha.1 ha.2 trivial hb⟩
  | writePacket env packet =>
    obtain ⟨⟨accepted, u⟩, hu, hs⟩ := bind_eq_ok.mp hs
    cases hs
    exact writePacket_keeps h hq.1 hq.2 hu
  | dmaEvent env i => exact dmaEvent_keeps h hq.1 hq.2 hs
  | clearDone =>
    obtain ⟨done, rfl⟩ := clearDone_cases hs
    exact ⟨order, hq⟩
  | writeback mask =>
    obtain ⟨b, hb, rfl⟩ := onBase_eq_ok.mp hs
    exact ⟨order, h.withSteady.writebackGlobal hq.1 hq hb⟩
  | writebackComplete e f =>
    obtain ⟨b, hb, rfl⟩ := onBase_eq_ok.mp hs
    exact ⟨order, h.withSteady.writebackComplete hq.1 hq ha hb⟩
  | areaWrite r val | reset => exact ha.elim

end Moves

theorem capacity_of_reach {base : Nat} (h : Reach (step cfg) CacheAllowed (construct base len) s) :
    DescCacheGlobal.Capacity cfg s.toDescCacheGlobal := by
  have hmoves : DescCacheGlobal.CacheMoves cfg (fun _ => True) (fun _ _ _ => True)
      (Sized (α := RxDesc) (π := EthPacket) cfg) := Sized.cacheMoves
  obtain ⟨order, hs, hsized⟩ := h.invariant
    (P := fun s => ∃ order, Steady cfg order s.toDescCacheGlobal ∧
      Sized cfg order s.toDescCacheGlobal)
    ⟨[], Steady.construct cfg base len, Sized.construct cfg base len⟩
    fun hk ha hs => step_keeps hmoves hk ha (fun _ _ _ hsized => hsized) hs
  exact hsized.capacity hs

theorem staysOnRing_of_reach {base : Nat} (hlen : 0 < len)
    (h : Reach (step cfg) (fun s a => CacheAllowed s a ∧ TailOnRing s a) (construct base len) s) :
    DescCacheGlobal.StaysOnRing s.toDescCacheGlobal ∧ ∀ e data, s.fetch.InFlight e →
      data.length = s.fetch.requested e → ∃ t, step cfg s (.fetchComplete e data) = .ok t := by
  have hmoves : DescCacheGlobal.CacheMoves cfg (fun _ => True) (fun _ _ _ => True)
      fun _ => Bounded (α := RxDesc) (π := EthPacket) len := Bounded.cacheMoves
  obtain ⟨order, hs, hb⟩ := h.invariant
    (P := fun s => ∃ order, Steady cfg order s.toDescCacheGlobal ∧
      Bounded len s.toDescCacheGlobal)
    ⟨[], Steady.construct cfg base len, Bounded.construct base hlen⟩
    fun hk ha hs => step_keeps hmoves hk ha.1 (by
      rintro tail rfl order hb
      exact hb.setTail (hb.descLen ▸ ha.2)) hs
  refine ⟨hb.staysOnRing, fun e data he hdata => ?_⟩
  obtain ⟨b, hret⟩ := hb.fetchComplete_returns hs he hdata
  exact ⟨_, onBase_eq_ok.mpr ⟨b, hret, rfl⟩⟩

end RxDescCacheGlobal

namespace TxDescCacheGlobal

open DescCacheGlobal (Sized Bounded Supplied Arrives)

variable {cfg : Config} {s : TxDescCacheGlobal} {len : Nat}

def TailOnRing (s : TxDescCacheGlobal) : TxOp → Prop
  | .setTail tail => tail ≤ s.descLen
  | _ => True

theorem capacity_of_reach {base : Nat} (h : Reach (op cfg) Possible (construct base len) s) :
    DescCacheGlobal.Capacity cfg s.toDescCacheGlobal := by
  have hmoves : DescCacheGlobal.CacheMoves cfg (fun _ => True) (fun _ _ _ => True)
      (Sized (α := TxDesc) (π := EthPacketData) cfg) := Sized.cacheMoves
  have hkept :=
    h.invariant (P := Kept cfg (Sized cfg)) (construct_kept (Sized.construct cfg base len))
    fun hk ha hs => op_keeps hmoves hk ha (fun _ _ _ => trivial) (fun _ _ _ => trivial)
      (fun _ _ _ hsized => hsized) hs
  obtain ⟨order, hs, hsized⟩ := hkept.cache
  exact hsized.capacity hs

theorem staysOnRing_of_reach {base : Nat} (hlen : 0 < len)
    (h : Reach (op cfg) (fun s o => Possible s o ∧ TailOnRing s o) (construct base len) s) :
    DescCacheGlobal.StaysOnRing s.toDescCacheGlobal := by
  have hmoves : DescCacheGlobal.CacheMoves cfg (fun _ => True) (fun _ _ _ => True)
      fun _ => Bounded (α := TxDesc) (π := EthPacketData) len := Bounded.cacheMoves
  have hkept := h.invariant (P := Kept cfg fun _ => Bounded len)
    (construct_kept (Bounded.construct base hlen))
    fun hk ha hs => op_keeps hmoves hk ha.1 (fun _ _ _ => trivial) (fun _ _ _ => trivial) (by
      rintro tail rfl order hb
      exact hb.setTail (hb.descLen ▸ ha.2)) hs
  obtain ⟨order, hs, hb⟩ := hkept.cache
  exact hb.staysOnRing

/-- Every descriptor that is fetched passes the assert of `getBuf`. -/
def CarriesData : TxOp → Prop
  | .fetchComplete _ data => ∀ d ∈ data, d.carriesData = true
  | _ => True

theorem fetchComplete_of_reach {base e : Nat} {data : List TxDesc} (hlen : 0 < len)
    (h : Reach (op cfg) (fun s o => Possible s o ∧ TailOnRing s o ∧ CarriesData o)
      (construct base len) s) (he : s.fetch.InFlight e)
    (hdata : data.length = s.fetch.requested e) (hcarry : ∀ d ∈ data, d.carriesData = true) :
    ∃ t, op cfg s (.fetchComplete e data) = .ok t := by
  have hmoves : DescCacheGlobal.CacheMoves cfg (fun _ => True)
      (Arrives fun _ d => d.carriesData = true) fun _ b => Bounded (α := TxDesc)
        (π := EthPacketData) len b ∧ Supplied (fun _ d => d.carriesData = true) b :=
    Bounded.cacheMoves.and (Supplied.cacheMoves fun _ _ _ harr => harr)
  have hkept := h.invariant (P := Kept cfg fun _ b => Bounded len b ∧
      Supplied (fun _ d => d.carriesData = true) b)
    (construct_kept ⟨Bounded.construct base hlen, Supplied.construct _ base len⟩)
    fun hk ha hs => op_keeps hmoves hk ha.1 (fun _ _ _ => trivial) (by
      rintro e data rfl x d hd
      exact ha.2.2 d (List.mem_of_getElem? hd)) (by
      rintro tail rfl order ⟨hb, hsup⟩
      exact ⟨hb.setTail (hb.descLen ▸ ha.2.1), hsup.of_same rfl⟩) hs
  obtain ⟨order, hs, hb, hsup⟩ := hkept.cache
  obtain ⟨b, hret⟩ := hb.fetchComplete_returns hs he hdata
  have hsup' := hsup.fetchComplete hs.pools he
    (fun x d hd => hcarry d (List.mem_of_getElem? hd)) hret
  refine ⟨_, fetchComplete_eq_ok.mpr ⟨b, hret, rfl, fun d hd => ?_⟩⟩
  obtain ⟨x, hx, rfl⟩ := List.mem_map.mp (hsup'.suffix.subset (List.mem_of_mem_drop hd))
  exact hsup'.fetched x hx

end TxDescCacheGlobal

namespace DescCacheGlobal

/-- In every run of a receive or a transmit queue the cache holds what was fetched, whatever
tails the guest writes; and if the ring is not empty and no tail is behind its end, no DMA runs
over the end of the ring, the cache position stays on it, and the end of every fetch passes its
asserts (if the descriptors of a transmit queue carry data). -/
theorem cache_within_bounds (cfg : Config) (base len : Nat) :
    (∀ s, Reach (RxDescCacheGlobal.step cfg) RxDescCacheGlobal.CacheAllowed
      (RxDescCacheGlobal.construct base len) s → Capacity cfg s.toDescCacheGlobal) ∧
    (∀ s, Reach (TxDescCacheGlobal.op cfg) TxDescCacheGlobal.Possible
      (TxDescCacheGlobal.construct base len) s → Capacity cfg s.toDescCacheGlobal) ∧
    (0 < len →
      (∀ s, Reach (RxDescCacheGlobal.step cfg)
          (fun s a => RxDescCacheGlobal.CacheAllowed s a ∧ RxDescCacheGlobal.TailOnRing s a)
          (RxDescCacheGlobal.construct base len) s → StaysOnRing s.toDescCacheGlobal ∧
        ∀ e data, s.fetch.InFlight e → data.length = s.fetch.requested e →
          ∃ t, s.step cfg (.fetchComplete e data) = .ok t) ∧
      (∀ s, Reach (TxDescCacheGlobal.op cfg)
          (fun s o => TxDescCacheGlobal.Possible s o ∧ TxDescCacheGlobal.TailOnRing s o)
          (TxDescCacheGlobal.construct base len) s → StaysOnRing s.toDescCacheGlobal) ∧
      ∀ s, Reach (TxDescCacheGlobal.op cfg) (fun s o => TxDescCacheGlobal.Possible s o ∧
            TxDescCacheGlobal.TailOnRing s o ∧ TxDescCacheGlobal.CarriesData o)
          (TxDescCacheGlobal.construct base len) s →
        ∀ e data, s.fetch.InFlight e → data.length = s.fetch.requested e →
          (∀ d ∈ data, d.carriesData = true) → ∃ t, s.op cfg (.fetchComplete e data) = .ok t) :=
  ⟨fun _ h => RxDescCacheGlobal.capacity_of_reach h,
    fun _ h => TxDescCacheGlobal.capacity_of_reach h,
    fun hlen => ⟨fun _ h => RxDescCacheGlobal.staysOnRing_of_reach hlen h,
      fun _ h => TxDescCacheGlobal.staysOnRing_of_reach hlen h,
      fun _ h _ _ => TxDescCacheGlobal.fetchComplete_of_reach hlen h⟩⟩

def wideCache : Config := { RxDescCacheGlobal.twoEngines with size := 16 }

theorem cache_within_bounds_wrapped :
    ∃ s, Reach (RxDescCacheGlobal.step wideCache)
        (fun s a => RxDescCacheGlobal.CacheAllowed s a ∧ RxDescCacheGlobal.TailOnRing s a)
        (RxDescCacheGlobal.construct 0 8) s ∧
      s.hist.fetched.length = 8 ∧ s.fetch.requested 0 = 1 ∧ StaysOnRing s.toDescCacheGlobal := by
  obtain ⟨s, hs, hp⟩ := Reach.exists_of_runFrom (RxDescCacheGlobal.step wideCache)
    (fun s a => RxDescCacheGlobal.CacheAllowed s a ∧ RxDescCacheGlobal.TailOnRing s a)
    (RxDescCacheGlobal.construct 0 8)
    [.setTail 7, .fetchDescriptors, .fetchComplete 0 (List.replicate 7 ⟨0, 0⟩), .setTail 1,
      .fetchDescriptors, .fetchComplete 0 [⟨0, 0⟩], .fetchDescriptors]
    (fun s => s.hist.fetched.length = 8 ∧ s.fetch.requested 0 = 1)
    (by decide +kernel)
  exact ⟨s, hs, hp.1, hp.2, (((cache_within_bounds wideCache 0 8).2.2 (by decide)).1 s hs).1⟩

/-- Tail 12 on a ring of eight: one fetch reads twelve descriptors, four of them behind the ring,
and its end fails the assert on the cache position. -/
theorem fetch_over_ring_end :
    ∃ s, Reach (RxDescCacheGlobal.step wideCache)
        RxDescCacheGlobal.CacheAllowed (RxDescCacheGlobal.construct 0 8) s ∧
      s.fetch.engines 0 = ⟨0, 12 * sizeofDesc, 12⟩ ∧
      fetchComplete wideCache 0 (List.replicate 12 ⟨0, 0⟩) s.toDescCacheGlobal =
        .error .assertion :=
  Reach.exists_of_run [.setTail 12, .fetchDescriptors] (by decide +kernel)

end DescCacheGlobal

end Gem5.IGbE
