import Gem5.IGbE.RxRing

/-!
# Reconfiguring and resetting a receive queue

Here the guest may write the ring registers at any time. A reset clears the
arrays of the queue but not the requests of its DMA engines, so what matters is
whether a DMA is in flight when it happens.
-/

namespace Gem5.IGbE.RxDescCacheGlobal

open DescCacheGlobal (Frame Pools Processing Retired AreaRegister fetchDescriptorsGlobal_frame
  fetchComplete_frame writebackGlobal_frame writebackComplete_frame)

variable {cfg : Config} {s t : RxDescCacheGlobal} {order : List Nat} {a : RxAct} {i : Nat}

def InFlight (cfg : Config) (s : RxDescCacheGlobal) : Prop :=
  (∃ e < cfg.numDescDMAEngines, s.fetch.InFlight e) ∨
  (∃ e < cfg.numDescDMAEngines, s.wb.InFlight e) ∨
  ∃ i < cfg.numDMAEngines, 0 < (s.dmaEngineArray i).pending

instance (cfg : Config) (s : RxDescCacheGlobal) : Decidable (InFlight cfg s) :=
  inferInstanceAs (Decidable (_ ∨ _))

structure Line (cfg : Config) (order : List Nat) (s : RxDescCacheGlobal) : Prop where
  processing : Processing cfg order s.toDescCacheGlobal
  engines : Engines order s
  oldest : ∀ i, order.head? = some i → (s.processingCache i).done = false

namespace Line

theorem construct (cfg : Config) (base len : Nat) : Line cfg [] (construct base len) :=
  ⟨Processing.construct cfg base len, Engines.construct base len, by simp⟩

theorem of_frame {b : DescCacheGlobal RxDesc EthPacket} (h : Line cfg order s)
    (hf : Frame s.toDescCacheGlobal b) : Line cfg order { s with toDescCacheGlobal := b } := by
  refine ⟨h.processing.of_frame hf, h.engines.of_frame hf, ?_⟩
  intro i hi
  rw [hf.processingCache]
  exact h.oldest i hi

theorem of_same {b : DescCacheGlobal RxDesc EthPacket} (h : Line cfg order s)
    (heq : (b.processingCache, b.nextSeqToWriteback, b.nextSeqToProcess, b.processingPktArray) =
      (s.processingCache, s.nextSeqToWriteback, s.nextSeqToProcess, s.processingPktArray)) :
    Line cfg order { s with toDescCacheGlobal := b } := by
  simp only [Prod.mk.injEq] at heq
  obtain ⟨hc, hw, hp, hpkt⟩ := heq
  refine ⟨h.processing.of_same_slots hc hw hp, ⟨?_, ?_, ?_⟩, ?_⟩
  · simpa only [hc, hpkt] using h.engines.busy
  · simpa only [hpkt] using h.engines.rest
  · simpa only [hc, hpkt] using h.engines.waiting
  · simpa only [hc] using h.oldest

theorem order_nil (h : Line cfg order s)
    (hq : ∀ i < cfg.numDMAEngines, (s.dmaEngineArray i).pending = 0) : order = [] := by
  cases horder : order with
  | nil => rfl
  | cons i rest =>
    have hm : i ∈ order := by simp [horder]
    have hdone := h.oldest i (by simp [horder])
    obtain ⟨p, hp⟩ := Option.isSome_iff_exists.mp (h.engines.waiting i hm hdone)
    have hpos := (h.engines.busy i p hp).2.2.2.pending_pos
    have hzero := hq i (h.processing.lt i hm)
    omega

theorem desc_none (h : Line cfg [] s) (i : Nat) : (s.processingCache i).desc = none := by
  cases hd : (s.processingCache i).desc with
  | none => rfl
  | some d =>
    have hm := (h.processing.live_iff i).mp (by simp [hd])
    cases hm

theorem pkt_none (h : Line cfg [] s) (i : Nat) : s.processingPktArray i = none := by
  cases hp : s.processingPktArray i with
  | none => rfl
  | some p =>
    have hm := (h.engines.busy i p hp).1
    cases hm

theorem reset (h : Line cfg order s)
    (hq : ∀ i < cfg.numDMAEngines, (s.dmaEngineArray i).pending = 0) :
    Line cfg [] { s with toDescCacheGlobal := s.reset } := by
  obtain rfl := h.order_nil hq
  have hslots : s.reset.processingCache = s.processingCache := by
    funext i
    have hd := h.desc_none i
    simp only [DescCacheGlobal.reset]
    rw [← hd]
  refine ⟨h.processing.of_same_slots hslots rfl rfl, ⟨?_, ?_, ?_⟩, by simp⟩
  · intro i p hp
    cases hp
  · intro i _
    exact h.engines.rest i (h.pkt_none i)
  · intro i hi
    cases hi

attribute [local simp] DescCacheGlobal.setBody

theorem writePacket {env : RxEnv} {packet : EthPacket} (h : Line cfg order s)
    (ha : Possible cfg s (.writePacket env packet))
    (hs : step cfg s (.writePacket env packet) = .ok t) : ∃ order', Line cfg order' t := by
  cases hu : s.unusedCache with
  | nil =>
    have hst : t = s := by simpa [step, writePacketGlobal, hu] using hs.symm
    exact ⟨order, hst ▸ h⟩
  | cons d later =>
    obtain ⟨hfree, hlen, hacc⟩ := ha (by simp [hu])
    obtain ⟨i, eng, body, hw, hlt, hdesc, hengines⟩ :=
      writePacketGlobal_spec h.engines hu hfree hlen hacc
    simp only [step, hw] at hs
    cases hs
    refine ⟨order ++ [i], ?_, hengines, ?_⟩
    · exact ((h.processing.beginProcessing hlt hdesc).setPkt (some packet)).setBody body
    · intro j hj
      by_cases hji : j = i
      · simp [assign, DescCacheGlobal.setPkt, DescCacheGlobal.beginProcessing, hji]
      · have hjo : order.head? = some j := by
          cases order with
          | nil =>
            have hij : i = j := by simpa using hj
            exact absurd hij.symm hji
          | cons k rest => simpa using hj
        simpa [assign, DescCacheGlobal.setPkt, DescCacheGlobal.beginProcessing,
          hji] using h.oldest j hjo

theorem dmaEvent {env : RxEnv} (h : Line cfg order s) (ha : Possible cfg s (.dmaEvent env i)) :
    ∃ t order', step cfg s (.dmaEvent env i) = .ok t ∧ Line cfg order' t := by
  obtain ⟨hpend, hpcss, hdt⟩ := ha
  rcases dmaEvent_spec h.engines h.processing hpend hpcss hdt with
    ⟨eng, body, hok, hengines⟩ | ⟨eng, body, front, rest, b, hok, hm, hr, hhead, hengines⟩
  · refine ⟨_, order, hok, h.processing.setBody body, hengines, ?_⟩
    intro j hj
    by_cases hji : j = i
    · simpa [setEngine, hji] using h.oldest i (hji ▸ hj)
    · simpa [setEngine, hji] using h.oldest j hj
  · exact ⟨_, rest, hok, hr.processing, hengines, hhead⟩

theorem clearDone (h : Line cfg order s) :
    ∃ done, step cfg s .clearDone = .ok { s with processingPktDoneArray := done } ∧
      Line cfg order { s with processingPktDoneArray := done } := by
  obtain ⟨done, hok, hengines⟩ := clearDone_spec cfg h.engines
  exact ⟨done, hok, h.processing, hengines, h.oldest⟩

end Line

def Undisturbed (cfg : Config) (s : RxDescCacheGlobal) : RxAct → Prop
  | .areaWrite _ _ => False
  | .reset => False
  | a => Possible cfg s a

instance (cfg : Config) (s : RxDescCacheGlobal) (a : RxAct) : Decidable (Undisturbed cfg s a) :=
  match a with
  | .areaWrite _ _ | .reset => isFalse id
  | .setTail _ | .fetchDescriptors | .clearDone | .writeback _ => isTrue trivial
  | .fetchComplete e data => instDecidablePossible cfg s (.fetchComplete e data)
  | .writePacket env p => instDecidablePossible cfg s (.writePacket env p)
  | .dmaEvent env e => instDecidablePossible cfg s (.dmaEvent env e)
  | .writebackComplete e f => instDecidablePossible cfg s (.writebackComplete e f)

theorem Line.step (h : ∃ order, Line cfg order s) (ha : Undisturbed cfg s a)
    (hs : step cfg s a = .ok t) : ∃ order, Line cfg order t := by
  obtain ⟨order, h⟩ := h
  rcases step_cases hs with ⟨b, hf, rfl⟩ | ⟨rfl, _⟩ | ⟨tail, rfl⟩ | ⟨env, packet, rfl⟩ |
    ⟨env, i, rfl⟩ | ⟨r, val, rfl⟩ | rfl
  · exact ⟨order, h.of_frame hf⟩
  · obtain ⟨done, hok, hline⟩ := h.clearDone
    exact ⟨order, eq_of_ok hok hs ▸ hline⟩
  · cases hs
    exact ⟨order, h.of_same rfl⟩
  · exact h.writePacket ha hs
  · obtain ⟨u, order', hu, hline⟩ := h.dmaEvent ha
    exact ⟨order', eq_of_ok hu hs ▸ hline⟩
  · exact ha.elim
  · exact ha.elim

theorem areaWrite_ok {r : AreaRegister} {val : BitVec 32}
    {b c : DescCacheGlobal RxDesc EthPacket} (h : b.areaWrite r val = .ok c) :
    b.usedCache = [] ∧ c = (b.writeRegister r val).reset := by
  unfold DescCacheGlobal.areaWrite DescCacheGlobal.areaChanged at h
  split at h
  · cases h
  · rename_i hguard
    have hused : (b.writeRegister r val).usedCache = b.usedCache := by cases r <;> rfl
    rw [hused] at hguard
    refine ⟨?_, eq_of_ok h rfl⟩
    apply List.eq_nil_of_length_eq_zero
    omega

theorem packet_step_frame
    (ha : (∃ env packet, a = .writePacket env packet) ∨ ∃ env i, a = .dmaEvent env i)
    (hs : step cfg s a = .ok t) :
    (t.fetch, t.wb, t.curFetching, t.wbOut) = (s.fetch, s.wb, s.curFetching, s.wbOut) ∧
      s.usedCache.length ≤ t.usedCache.length := by
  rcases ha with ⟨env, packet, rfl⟩ | ⟨env, i, rfl⟩
  · obtain ⟨⟨accepted, u⟩, hu, hs⟩ := bind_eq_ok.mp hs
    cases hs
    rcases writePacketGlobal_cases hu with rfl | ⟨i, d, eng, body, _, _, rfl⟩ <;>
      exact ⟨rfl, le_rfl⟩
  · obtain ⟨eng, body, c, _, ⟨_, rfl⟩ | ⟨_, _, _, b, hb, rfl⟩⟩ := dmaEvent_cases hs
    · exact ⟨rfl, le_rfl⟩
    · obtain ⟨hframe, hlen⟩ := DescCacheGlobal.manageUsedCache_frame hb
      simp only [Prod.mk.injEq] at hframe ⊢
      obtain ⟨hf, hw, _, hc, ho⟩ := hframe
      exact ⟨⟨hf, hw, hc, ho⟩, hlen⟩

structure Sound (cfg : Config) (order : List Nat) (s : RxDescCacheGlobal) : Prop where
  pools : Pools cfg s.toDescCacheGlobal
  line : Line cfg order s
  counters : s.curFetching = 0 ∧ s.wbOut = 0

def Guarded (cfg : Config) (s : RxDescCacheGlobal) : Prop :=
  s.usedCache ≠ [] ∨ (∀ e < cfg.numDescDMAEngines, ¬ s.fetch.InFlight e) ∧
    ∀ i < cfg.numDMAEngines, (s.dmaEngineArray i).pending = 0

instance (cfg : Config) (s : RxDescCacheGlobal) : Decidable (Guarded cfg s) :=
  inferInstanceAs (Decidable (_ ∨ _))

def GuardedAllowed (cfg : Config) (s : RxDescCacheGlobal) : RxAct → Prop
  | .areaWrite _ _ => Guarded cfg s
  | .reset => ¬ InFlight cfg s
  | a => Possible cfg s a

instance (cfg : Config) (s : RxDescCacheGlobal) (a : RxAct) :
    Decidable (GuardedAllowed cfg s a) :=
  match a with
  | .areaWrite _ _ => inferInstanceAs (Decidable (Guarded cfg s))
  | .reset => inferInstanceAs (Decidable (¬ _))
  | .setTail _ | .fetchDescriptors | .clearDone | .writeback _ => isTrue trivial
  | .fetchComplete e data => instDecidablePossible cfg s (.fetchComplete e data)
  | .writePacket env p => instDecidablePossible cfg s (.writePacket env p)
  | .dmaEvent env e => instDecidablePossible cfg s (.dmaEvent env e)
  | .writebackComplete e f => instDecidablePossible cfg s (.writebackComplete e f)

namespace Sound

theorem construct (cfg : Config) (base len : Nat) : Sound cfg [] (construct base len) :=
  ⟨DescCacheGlobal.construct_pools cfg base len, Line.construct cfg base len, rfl, rfl⟩

section

variable (h : Sound cfg order s)
include h

theorem of_base {b : DescCacheGlobal RxDesc EthPacket}
    (hp : Pools cfg b) (hf : Frame s.toDescCacheGlobal b) :
    Sound cfg order { s with toDescCacheGlobal := b } := by
  refine ⟨hp, h.line.of_frame hf, ?_, ?_⟩
  · exact (congrArg DescCacheGlobal.Untouched.curFetching hf).trans h.counters.1
  · exact (congrArg DescCacheGlobal.Untouched.wbOut hf).trans h.counters.2

theorem used_of_wb {e : Nat} (he : s.wb.InFlight e) : s.usedCache ≠ [] := by
  intro hnil
  have hm := ((h.pools.wb_wf.inFlight_iff e).mp he).1
  have hpos := h.pools.wb_wf.count_pos hm
  have hcount := h.pools.wb_wf.count_le hm
  have hle := h.pools.wb_le
  rw [hnil, List.length_nil] at hle
  omega

theorem not_inFlight (hg : Guarded cfg s) (hnil : s.usedCache = []) : ¬ InFlight cfg s := by
  obtain ⟨hf, hq⟩ := hg.resolve_left (by simp [hnil])
  rintro (⟨e, he, hfe⟩ | ⟨e, _, hwe⟩ | ⟨i, hi, hpi⟩)
  · exact hf e he hfe
  · exact h.used_of_wb hwe hnil
  · have := hq i hi
    omega

theorem reset (hq : ¬ InFlight cfg s) : Sound cfg [] { s with toDescCacheGlobal := s.reset } := by
  have hpackets : ∀ i < cfg.numDMAEngines, (s.dmaEngineArray i).pending = 0 := by
    intro i hi
    by_contra hpi
    exact hq (Or.inr (Or.inr ⟨i, hi, by omega⟩))
  exact ⟨h.pools.reset (fun e he hf => hq (Or.inl ⟨e, he, hf⟩))
    (fun e he hw => hq (Or.inr (Or.inl ⟨e, he, hw⟩))), h.line.reset hpackets, h.counters⟩

theorem writeRegister (r : AreaRegister) (val : BitVec 32) :
    Sound cfg order { s with toDescCacheGlobal := s.writeRegister r val } := by
  refine ⟨h.pools.writeRegister r val, h.line.of_same ?_, ?_⟩
  · cases r <;> rfl
  · cases r <;> exact h.counters

theorem areaWrite {r : AreaRegister} {val : BitVec 32}
    (hg : Guarded cfg s) (hs : step cfg s (.areaWrite r val) = .ok t) :
    Sound cfg [] t ∧ ¬ InFlight cfg t := by
  obtain ⟨b, hb, rfl⟩ := onBase_eq_ok.mp hs
  obtain ⟨hnil, rfl⟩ := areaWrite_ok hb
  have hq := h.not_inFlight hg hnil
  have hq' : ¬ InFlight cfg { s with toDescCacheGlobal := s.writeRegister r val } := by
    cases r <;> exact hq
  refine ⟨(h.writeRegister r val).reset hq', ?_⟩
  rintro (⟨e, he, hf⟩ | ⟨e, he, hw⟩ | ⟨i, hi, hp⟩)
  · exact hq' (Or.inl ⟨e, he, hf⟩)
  · exact hq' (Or.inr (Or.inl ⟨e, he, hw⟩))
  · exact hq' (Or.inr (Or.inr ⟨i, hi, hp⟩))

theorem of_packet_step {order' : List Nat} (hline : Line cfg order' t)
    (ha : (∃ env packet, a = .writePacket env packet) ∨ ∃ env i, a = .dmaEvent env i)
    (hs : step cfg s a = .ok t) : Sound cfg order' t := by
  obtain ⟨hframe, hlen⟩ := packet_step_frame ha hs
  simp only [Prod.mk.injEq] at hframe
  obtain ⟨hf, hw, hc, ho⟩ := hframe
  refine ⟨h.pools.of_same_engines hf hw hlen, hline, ?_⟩
  rw [hc, ho]
  exact h.counters

end

theorem step (h : ∃ order, Sound cfg order s) (ha : GuardedAllowed cfg s a)
    (hs : step cfg s a = .ok t) : ∃ order, Sound cfg order t := by
  obtain ⟨order, h⟩ := h
  cases a with
  | setTail tail =>
    cases hs
    exact ⟨order, h.pools.of_same_engines rfl rfl le_rfl, h.line.of_same rfl, h.counters⟩
  | fetchDescriptors =>
    obtain ⟨b, hb, rfl⟩ := onBase_eq_ok.mp hs
    exact ⟨order, h.of_base (h.pools.fetchDescriptorsGlobal hb)
      (fetchDescriptorsGlobal_frame hb)⟩
  | fetchComplete e data =>
    obtain ⟨b, hb, rfl⟩ := onBase_eq_ok.mp hs
    exact ⟨order, h.of_base (h.pools.fetchComplete ha.1 ha.2 hb).1
      (fetchComplete_frame hb)⟩
  | writePacket env packet =>
    obtain ⟨order', hline⟩ := h.line.writePacket ha hs
    exact ⟨order', h.of_packet_step hline (Or.inl ⟨env, packet, rfl⟩) hs⟩
  | dmaEvent env i =>
    obtain ⟨u, order', hu, hline⟩ := h.line.dmaEvent ha
    rw [hu] at hs
    cases hs
    exact ⟨order', h.of_packet_step hline (Or.inr ⟨env, i, rfl⟩) hu⟩
  | clearDone =>
    obtain ⟨done, hok, hline⟩ := h.line.clearDone
    rw [hok] at hs
    cases hs
    exact ⟨order, h.pools, hline, h.counters⟩
  | writeback mask =>
    obtain ⟨b, hb, rfl⟩ := onBase_eq_ok.mp hs
    exact ⟨order, h.of_base (h.pools.writebackGlobal hb) (writebackGlobal_frame hb)⟩
  | writebackComplete e f =>
    obtain ⟨b, hb, rfl⟩ := onBase_eq_ok.mp hs
    exact ⟨order, h.of_base (h.pools.writebackComplete ha hb)
      (writebackComplete_frame hb)⟩
  | areaWrite r val => exact ⟨[], (h.areaWrite ha hs).1⟩
  | reset =>
    cases hs
    exact ⟨[], h.reset ha⟩

end Sound

theorem areaWrite_eq (h : Sound cfg order s) (r : AreaRegister) (val : BitVec 32) :
    step cfg s (.areaWrite r val) = if s.usedCache = [] then
      .ok { s with toDescCacheGlobal := (s.writeRegister r val).reset }
    else .error (.panic "Descriptor Address, Length or Head changed. Bad\n") := by
  have hwrite : (s.writeRegister r val).usedCache = s.usedCache ∧
      (s.writeRegister r val).curFetching = 0 ∧ (s.writeRegister r val).wbOut = 0 := by
    cases r <;> exact ⟨rfl, h.counters⟩
  obtain ⟨hu, hc, ho⟩ := hwrite
  simp only [step, onBase, DescCacheGlobal.areaWrite, DescCacheGlobal.areaChanged, hu, hc, ho]
  cases s.usedCache with
  | nil | cons d rest => rfl

theorem writebackComplete_returns {e : Nat} (h : Sound cfg order s) (he : s.wb.InFlight e) :
    ∃ t, step cfg s (.writebackComplete e false) = .ok t := by
  have hlt := h.pools.wb_wf.lt ((h.pools.wb_wf.inFlight_iff e).mp he).1
  obtain ⟨b, hb⟩ := DescCacheGlobal.writebackComplete_returns (P := Pools cfg) false hlt
    (by
      obtain ⟨u, hu, hp, _⟩ := h.pools.wbFinish he
      exact ⟨u, hu, hp⟩)
    (fun u hp => by
      obtain ⟨v, hv⟩ := DescCacheGlobal.writebackGlobal_returns hp.wb_wf hp.wb_le u.wbAlignment
      exact ⟨v, hv, hp.writebackGlobal hv⟩)
    (fun hf => by cases hf)
  exact ⟨_, onBase_eq_ok.mpr ⟨b, hb, rfl⟩⟩

/-- Along every run whose area writes meet the guard: an area write with a DMA in
flight panics, and does so exactly in the guarded states; after one that returns no
DMA is in flight, so none ends against a reset queue; and every DMA in flight finds
the bookkeeping it was started with. -/
theorem area_write_guard (cfg : Config) (base len : Nat) (s : RxDescCacheGlobal)
    (h : Reach (step cfg) (GuardedAllowed cfg) (construct base len) s) :
    (∀ r val, (InFlight cfg s → step cfg s (.areaWrite r val) =
        .error (.panic "Descriptor Address, Length or Head changed. Bad\n")) ↔ Guarded cfg s) ∧
    (∀ r val t, Guarded cfg s → step cfg s (.areaWrite r val) = .ok t → ¬ InFlight cfg t) ∧
    (∀ e, s.fetch.InFlight e →
      e ∈ s.fetch.jobQueue ∧ s.fetch.num e = some (s.fetch.requested e)) ∧
    (∀ e, s.wb.InFlight e → ∃ t, step cfg s (.writebackComplete e false) = .ok t) ∧
    (∀ env i, Possible cfg s (.dmaEvent env i) → ∃ t, step cfg s (.dmaEvent env i) = .ok t) := by
  obtain ⟨order, hs⟩ := h.invariant ⟨[], Sound.construct cfg base len⟩ Sound.step
  refine ⟨?_, ?_, ?_, ?_, ?_⟩
  · intro r val
    rw [areaWrite_eq hs]
    constructor
    · intro hpanic
      by_cases hnil : s.usedCache = []
      · right
        rw [if_pos hnil] at hpanic
        have hq : ¬ InFlight cfg s := fun hin => by cases hpanic hin
        refine ⟨fun e he hf => hq (Or.inl ⟨e, he, hf⟩), fun i hi => ?_⟩
        by_contra hpi
        exact hq (Or.inr (Or.inr ⟨i, hi, by omega⟩))
      · exact .inl hnil
    · intro hg hin
      rw [if_neg]
      intro hnil
      exact hs.not_inFlight hg hnil hin
  · intro r val t hg ht
    exact (hs.areaWrite hg ht).2
  · intro e he
    obtain ⟨hm, hd⟩ := (hs.pools.fetch_wf.inFlight_iff e).mp he
    refine ⟨hm, ?_⟩
    rw [hs.pools.fetch_wf.busy hm hd]
    exact hs.pools.fetch_wf.num_eq hm
  · intro e he
    exact writebackComplete_returns hs he
  · intro env i hp
    obtain ⟨t, _, ht, _⟩ := hs.line.dmaEvent hp
    exact ⟨t, ht⟩

theorem area_write_guard_during_writeback :
    ∃ s, Reach (step twoEngines) (GuardedAllowed twoEngines) (construct 0 8) s ∧
      InFlight twoEngines s ∧ ∀ r val, step twoEngines s (.areaWrite r val) =
        .error (.panic "Descriptor Address, Length or Head changed. Bad\n") := by
  obtain ⟨s, hs, hp⟩ := Reach.exists_of_runFrom (step twoEngines) (GuardedAllowed twoEngines)
    (construct 0 8)
    (.areaWrite .len 128 :: twoFetched ++ [.writePacket plainEnv ⟨[1]⟩, .dmaEvent plainEnv 0,
      .writeback 0])
    (fun s => InFlight twoEngines s ∧ Guarded twoEngines s)
    (by decide +kernel)
  refine ⟨s, hs, hp.1, fun r val => ?_⟩
  exact ((area_write_guard twoEngines 0 8 s hs).1 r val).mpr hp.2 hp.1

/-- A fetch is in flight and no descriptor is used yet. Writing the head register
resets the queue, and the end of that fetch then finds an empty job queue. -/
theorem area_write_during_fetch :
    ∃ s t, Reach (step twoEngines) (Possible twoEngines) (construct 0 8) s ∧
      InFlight twoEngines s ∧ step twoEngines s (.areaWrite .head 0) = .ok t ∧
      Possible twoEngines t (.fetchComplete 0 [⟨0, 0⟩]) ∧
      step twoEngines t (.fetchComplete 0 [⟨0, 0⟩]) = .error .assertion := by
  obtain ⟨s, hs, hp⟩ := Reach.exists_of_runFrom (step twoEngines) (Possible twoEngines)
    (construct 0 8) [.setTail 1, .fetchDescriptors]
    (fun s => decide (InFlight twoEngines s) &&
      okAnd (step twoEngines s (.areaWrite .head 0)) fun t =>
        decide (Possible twoEngines t (.fetchComplete 0 [⟨0, 0⟩])) &&
          failsWith (step twoEngines t (.fetchComplete 0 [⟨0, 0⟩])) .assertion)
    (by decide +kernel)
  simp only [Bool.and_eq_true, decide_eq_true_eq, okAnd_iff, failsWith_iff] at hp
  obtain ⟨hin, t, ht, hposs, hfail⟩ := hp
  exact ⟨s, t, hs, hin, ht, hposs, hfail⟩

end Gem5.IGbE.RxDescCacheGlobal
