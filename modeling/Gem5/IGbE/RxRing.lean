import Gem5.IGbE.RxQueue

/-!
# Descriptor identity of a receive queue

In every run in which the guest keeps the tail behind the head by at most one lap,
no function of the queue stops, and every descriptor is written back to the slot
it was fetched from, in the order of the fetches.
-/

namespace Gem5.IGbE.RxDescCacheGlobal

open DescCacheGlobal (Frame Working)

variable {cfg : Config} {s t : RxDescCacheGlobal} {order : List Nat} {a : RxAct}

def RingAllowed (cfg : Config) (s : RxDescCacheGlobal) : RxAct → Prop
  | .setTail tail => tail < s.descLen ∧
      s.hist.posted + RingIndex.ahead s.descLen s.descTail tail ≤ s.hist.retired + s.descLen
  | .areaWrite _ _ => False
  | .reset => False
  | a => Possible cfg s a

instance (cfg : Config) (s : RxDescCacheGlobal) (a : RxAct) : Decidable (Possible cfg s a) :=
  match a with
  | .setTail _ | .fetchDescriptors | .clearDone | .writeback _ | .areaWrite _ _ | .reset =>
    isTrue trivial
  | .fetchComplete _ _ => inferInstanceAs (Decidable (_ ∧ _))
  | .writePacket _ _ => inferInstanceAs (Decidable (_ → _))
  | .dmaEvent _ _ => inferInstanceAs (Decidable (_ ∧ _))
  | .writebackComplete _ _ => inferInstanceAs (Decidable (DescDMAPool.InFlight _ _))

instance (cfg : Config) (s : RxDescCacheGlobal) (a : RxAct) : Decidable (RingAllowed cfg s a) :=
  match a with
  | .setTail _ => inferInstanceAs (Decidable (_ ∧ _))
  | .areaWrite _ _ | .reset => isFalse id
  | .fetchDescriptors | .clearDone | .writeback _ => isTrue trivial
  | .fetchComplete e data => instDecidablePossible cfg s (.fetchComplete e data)
  | .writePacket env p => instDecidablePossible cfg s (.writePacket env p)
  | .dmaEvent env e => instDecidablePossible cfg s (.dmaEvent env e)
  | .writebackComplete e f => instDecidablePossible cfg s (.writebackComplete e f)

structure RxWorking (cfg : Config) (len : Nat) (order : List Nat) (s : RxDescCacheGlobal) :
    Prop where
  base : Working cfg order s.toDescCacheGlobal
  engines : Engines order s
  len_eq : s.descLen = len

namespace RxWorking

variable {len : Nat}

theorem construct {base : Nat} (hlen : 0 < len) : RxWorking cfg len [] (construct base len) :=
  ⟨Working.construct cfg base hlen, Engines.construct base len, rfl⟩

section

variable (h : RxWorking cfg len order s)
include h

theorem onBase {f : DescCacheGlobal RxDesc EthPacket → Sim (DescCacheGlobal RxDesc EthPacket)}
    (hret : ∃ b, f s.toDescCacheGlobal = .ok b)
    (hkeep : ∀ b, f s.toDescCacheGlobal = .ok b → Working cfg order b)
    (hframe : ∀ b, f s.toDescCacheGlobal = .ok b → Frame s.toDescCacheGlobal b) :
    ∃ t order', s.onBase f = .ok t ∧ RxWorking cfg len order' t := by
  obtain ⟨b, hb⟩ := hret
  exact ⟨_, order, onBase_eq_ok.mpr ⟨b, hb, rfl⟩, hkeep b hb, h.engines.of_frame (hframe b hb),
    (hframe b hb).descLen.trans h.len_eq⟩

theorem writePacket {env : RxEnv} {packet : EthPacket}
    (ha : Possible cfg s (.writePacket env packet)) :
    ∃ t order', step cfg s (.writePacket env packet) = .ok t ∧ RxWorking cfg len order' t := by
  cases hu : s.unusedCache with
  | nil => exact ⟨s, order, by simp [step, writePacketGlobal, hu], h⟩
  | cons d later =>
    obtain ⟨hfree, hlen, hacc⟩ := ha (by simp [hu])
    obtain ⟨i, eng, body, hw, hlt, hdesc, hengines⟩ :=
      writePacketGlobal_spec h.engines hu hfree hlen hacc
    refine ⟨_, order ++ [i], by simp only [step, hw, sim_ok_bind, sim_pure], ?_, hengines,
      h.len_eq⟩
    exact ((h.base.beginProcessing hlt hdesc hu).setPkt _).setBody body

theorem dmaEvent {env : RxEnv} {i : Nat} (ha : Possible cfg s (.dmaEvent env i)) :
    ∃ t order', step cfg s (.dmaEvent env i) = .ok t ∧ RxWorking cfg len order' t := by
  obtain ⟨hpend, hpcss, hdt⟩ := ha
  rcases dmaEvent_spec h.engines h.base.processing hpend hpcss hdt with
    ⟨eng, body, hok, hengines⟩ | ⟨eng, body, front, rest, b, hok, hm, hr, _, hengines⟩
  · exact ⟨_, order, hok, h.base.setBody body, hengines, h.len_eq⟩
  · refine ⟨_, rest, hok, ?_, hengines, ?_⟩
    · exact (((h.base.setBody body).markProcessed hm).setPkt none).retired hr
    · rw [hr.eq]
      exact h.len_eq

theorem step_returns (ha : RingAllowed cfg s a) :
    ∃ t order', step cfg s a = .ok t ∧ RxWorking cfg len order' t := by
  cases a with
  | setTail tail =>
    exact ⟨{ s with toDescCacheGlobal := s.setTail tail }, order, rfl,
      h.base.setTail ha.1 ha.2, ⟨h.engines.busy, h.engines.rest, h.engines.waiting⟩, h.len_eq⟩
  | fetchDescriptors =>
    exact h.onBase (h.base.ring.fetchDescriptorsGlobal_returns h.base.pools)
      (fun b hb => h.base.fetchDescriptorsGlobal hb)
      fun b hb => DescCacheGlobal.fetchDescriptorsGlobal_frame hb
  | fetchComplete e data =>
    exact h.onBase (h.base.fetchComplete_returns ha.1 ha.2)
      (fun b hb => h.base.fetchComplete ha.1 ha.2 hb)
      fun b hb => DescCacheGlobal.fetchComplete_frame hb
  | writePacket env packet => exact h.writePacket ha
  | dmaEvent env e => exact h.dmaEvent ha
  | clearDone =>
    obtain ⟨done, hok, hengines⟩ := clearDone_spec cfg h.engines
    exact ⟨_, order, hok, h.base, hengines, h.len_eq⟩
  | writeback mask =>
    exact h.onBase
      (DescCacheGlobal.writebackGlobal_returns h.base.pools.wb_wf h.base.pools.wb_le mask)
      (fun b hb => h.base.writebackGlobal hb) fun b hb => DescCacheGlobal.writebackGlobal_frame hb
  | writebackComplete e f =>
    exact h.onBase (h.base.writebackComplete_returns ha f)
      (fun b hb => h.base.writebackComplete ha hb)
      fun b hb => DescCacheGlobal.writebackComplete_frame hb
  | areaWrite r val | reset => exact ha.elim

end

theorem step (h : ∃ order, RxWorking cfg len order s) (ha : RingAllowed cfg s a)
    (hs : step cfg s a = .ok t) : ∃ order, RxWorking cfg len order t := by
  obtain ⟨order, h⟩ := h
  obtain ⟨u, order', hu, hw⟩ := h.step_returns ha
  rw [hu] at hs
  exact ⟨order', Except.ok.inj hs ▸ hw⟩

theorem of_reach {base : Nat} (hlen : 0 < len)
    (h : Reach (RxDescCacheGlobal.step cfg) (RingAllowed cfg)
      (RxDescCacheGlobal.construct base len) s) : ∃ order, RxWorking cfg len order s :=
  h.invariant ⟨[], construct hlen⟩ RxWorking.step

end RxWorking

/-- Along every run on the ring: every allowed action returns, so no assert of the
functions behind it fails; the `k`-th descriptor written back is the `k`-th one
fetched and goes to slot `k % len`, where it came from; and the pointers of the
cache are where the counts of cached descriptors put them. -/
theorem rx_ring_identity (cfg : Config) (base len : Nat) (hlen : 0 < len) (s : RxDescCacheGlobal)
    (h : Reach (step cfg) (RingAllowed cfg) (construct base len) s) :
    (∀ a, RingAllowed cfg s a → ∃ t, step cfg s a = .ok t) ∧
    (∀ k x, s.hist.written[k]? = some x → x.1 = k % len ∧
      ∃ d, s.hist.fetched[k]? = some (k % len, d) ∧ x.2.origin = d.origin) ∧
    s.descHead = s.hist.retired % len ∧
    s.cachePnt = (s.descHead + s.usedCache.length + s.descProcessing cfg +
      s.unusedCache.length) % len ∧
    s.fetch.curDMAPnt = (s.cachePnt + s.fetch.curNum) % len ∧
    s.wb.curDMAPnt = (s.descHead + s.wb.curNum) % len := by
  obtain ⟨order, hw⟩ := RxWorking.of_reach hlen h
  obtain rfl := hw.len_eq
  refine ⟨?_, ?_, hw.base.ring.head, hw.base.cachePnt_eq, hw.base.fetchPnt_eq, hw.base.wbPnt_eq⟩
  · intro a ha
    obtain ⟨t, _, ht, _⟩ := hw.step_returns ha
    exact ⟨t, ht⟩
  · intro k x hx
    obtain ⟨hslot, horigin, d, hd, hdo⟩ := hw.base.written_of_fetched hx
    exact ⟨hslot, d, hd, horigin.trans hdo.symm⟩

/-- One-buffer receive with 2 KiB buffers, every offload off. -/
def plainEnv : RxEnv where
  desctype := .advOneBuf
  lpe := false
  bufLen := 0
  hdrLen := 0
  descSize := 2048
  secrc := false
  pcss := 0
  ipofld := false
  tuofld := false
  pcsd := false
  inet := fun _ => ⟨none, false, none, none, 0⟩

def twoEngines : Config :=
  ⟨8, 2, 1, Nat.two_pos, two_le_maxDMAEngineSize, Nat.one_pos, one_le_maxDMAEngineSize⟩

def twoFetched : List RxAct :=
  [.setTail 2, .fetchDescriptors, .fetchComplete 0 [⟨0, 0⟩, ⟨0, 0⟩]]

theorem rx_ring_identity_two_packets :
    ∃ s, Reach (step twoEngines) (RingAllowed twoEngines) (construct 0 8) s ∧
      s.hist.written.length = 2 ∧ s.descHead = s.hist.retired % 8 ∧
      ∀ k x, s.hist.written[k]? = some x → x.1 = k % 8 := by
  obtain ⟨s, hs, hlen⟩ := Reach.exists_of_runFrom (step twoEngines)
    (RingAllowed twoEngines) (construct 0 8)
    (twoFetched ++ [.writePacket plainEnv ⟨[1]⟩, .writePacket plainEnv ⟨[2]⟩, .dmaEvent plainEnv 1,
      .dmaEvent plainEnv 0, .writeback 0, .setTail 0])
    (fun s => s.hist.written.length = 2) (by decide +kernel)
  obtain ⟨_, hslot, hhead, _⟩ := rx_ring_identity twoEngines 0 8 (by decide) s hs
  exact ⟨s, hs, hlen, hhead, fun k x hx => (hslot k x hx).1⟩

end Gem5.IGbE.RxDescCacheGlobal
