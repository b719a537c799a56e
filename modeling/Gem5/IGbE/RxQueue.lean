import Gem5.IGbE.RxDescCache
import Gem5.Shared.Reachability

/-!
# A receive queue step by step

The actions are what the guest, the memory system and the receive state machine
can do to one queue. `Engines` relates each packet engine to the packet and the
descriptor it was given; the receive functions keep it, whatever the ring holds.
-/

namespace Gem5.IGbE

open Bool List Option

open DescCacheGlobal (setBody setPkt beginProcessing markProcessed)

inductive RxAct where
  | setTail (tail : Nat)
  | fetchDescriptors
  | fetchComplete (e : Nat) (data : List RxDesc)
  | writePacket (env : RxEnv) (packet : EthPacket)
  | dmaEvent (env : RxEnv) (e : Nat)
  | clearDone
  | writeback (mask : BitVec 64)
  | writebackComplete (e : Nat) (fetchAfterWb : Bool)
  | areaWrite (r : DescCacheGlobal.AreaRegister) (val : BitVec 32)
  | reset

namespace RxDescCacheGlobal

open DescCacheGlobal (Frame Pools Processing Retired Working)

variable {cfg : Config} {s t : RxDescCacheGlobal} {i : Nat} {packet : EthPacket} {env : RxEnv}

def onBase (f : DescCacheGlobal RxDesc EthPacket → Sim (DescCacheGlobal RxDesc EthPacket))
    (s : RxDescCacheGlobal) : Sim RxDescCacheGlobal := do
  let base ← f s.toDescCacheGlobal
  pure { s with toDescCacheGlobal := base }

def step (cfg : Config) (s : RxDescCacheGlobal) : RxAct → Sim RxDescCacheGlobal
  | .setTail tail => s.onBase fun b => pure (b.setTail tail)
  | .fetchDescriptors => s.onBase (DescCacheGlobal.fetchDescriptorsGlobal cfg)
  | .fetchComplete e data => s.onBase (DescCacheGlobal.fetchComplete cfg e data)
  | .writePacket env packet => do
    let (_, s) ← s.writePacketGlobal cfg env packet
    pure s
  | .dmaEvent env e => s.dmaEvent cfg env e
  | .clearDone =>
    match s.hasReadyEthPacket cfg with
    | none => pure s
    | some i => s.clearDoneEthPacket i
  | .writeback mask => s.onBase (DescCacheGlobal.writebackGlobal cfg mask)
  | .writebackComplete e fetchAfterWb =>
    s.onBase (DescCacheGlobal.writebackComplete cfg e fetchAfterWb)
  | .areaWrite r val => s.onBase (DescCacheGlobal.areaWrite r val)
  | .reset => s.onBase fun b => pure b.reset

/-- When the outside world can take an action: a DMA ends only if it is in flight,
and the state machine hands over a packet when an engine is free and the packet
fits the buffer of one descriptor. The guest may write anything to the ring registers. -/
def Possible (cfg : Config) (s : RxDescCacheGlobal) : RxAct → Prop
  | .fetchComplete e data => s.fetch.InFlight e ∧ data.length = s.fetch.requested e
  | .writePacket env packet => s.unusedCache ≠ [] →
      s.hasFreeDMAEngine cfg = true ∧ 0 < packet.length ∧ RxDescCache.accepts env packet = true
  | .dmaEvent env e => 0 < (s.dmaEngineArray e).pending ∧ env.pcss = 0 ∧
      env.desctype.implemented = true
  | .writebackComplete e _ => s.wb.InFlight e
  | _ => True

theorem onBase_eq_ok
    {f : DescCacheGlobal RxDesc EthPacket → Sim (DescCacheGlobal RxDesc EthPacket)} :
    s.onBase f = .ok t ↔ ∃ b, f s.toDescCacheGlobal = .ok b ∧
      t = { s with toDescCacheGlobal := b } :=
  map_eq_ok.trans (exists_congr fun _ => and_congr_right fun _ => eq_comm)

end RxDescCacheGlobal

namespace RxDescCache

variable {packet : EthPacket} {env : RxEnv} {eng : RxDescCache} {desc : RxDesc}

structure Idle (eng : RxDescCache) : Prop where
  pktPtr : eng.pktPtr = none
  pktWaiting : eng.pktWaiting = false
  correspondingDesc : eng.correspondingDesc = false
  splitCount : eng.splitCount = 0
  bytesCopied : eng.bytesCopied = 0
  pending : eng.pending = 0

/-- The engine has DMA writes of the whole of `packet` under way. -/
structure Carrying (packet : EthPacket) (eng : RxDescCache) : Prop where
  pktPtr : eng.pktPtr = some packet
  pktWaiting : eng.pktWaiting = true
  correspondingDesc : eng.correspondingDesc = true
  bytesCopied : eng.bytesCopied = packet.length
  length_pos : 0 < packet.length
  pending_pos : 0 < eng.pending
  events : eng.pending + eng.splitCount = if eng.split then 2 else 1

/-- `pktComplete` has run; only `bytesCopied` is still to be read. -/
structure Finished (packet : EthPacket) (eng : RxDescCache) : Prop where
  pktPtr : eng.pktPtr = none
  pktWaiting : eng.pktWaiting = false
  correspondingDesc : eng.correspondingDesc = false
  splitCount : eng.splitCount = 0
  bytesCopied : eng.bytesCopied = packet.length
  pending : eng.pending = 0

theorem idle_idle : Idle idle := ⟨rfl, rfl, rfl, rfl, rfl, rfl⟩

theorem issue_carrying {copied : Nat} (split : Bool) (h : Idle eng) (hlen : 0 < packet.length)
    (hcopied : copied = packet.length) : Carrying packet (issue copied split
        { eng with correspondingDesc := true, pktPtr := some packet, pktWaiting := true }) where
  pktPtr := rfl
  pktWaiting := rfl
  correspondingDesc := rfl
  bytesCopied := hcopied
  length_pos := hlen
  pending_pos := by cases split <;> simp [issue]
  events := by
    have hs := h.splitCount
    cases split <;> simp [issue, hs]

theorem writePacket_accepts (desc : RxDesc) (h : Idle eng) (hlen : 0 < packet.length)
    (ha : accepts env packet = true) :
    ∃ eng' body, writePacket env packet 0 desc eng = .ok (eng', body) ∧ Carrying packet eng' := by
  have hbytes := h.bytesCopied
  unfold writePacket
  rw [h.correspondingDesc]
  unfold accepts at ha
  cases hdt : env.desctype with
  | legacy | advOneBuf =>
    rw [hdt] at ha
    rw [simAssert_of ha]
    exact ⟨_, _, rfl, issue_carrying false h hlen rfl⟩
  | advSplitA =>
    rw [hdt] at ha
    simp only
    by_cases hhdr : packet.length ≤ headerLen env
    · rw [if_pos hhdr]
      exact ⟨_, _, rfl, issue_carrying false h hlen rfl⟩
    · simp only [or_eq_true, and_eq_true, decide_eq_true_eq] at ha
      rw [if_neg hhdr, if_pos (by omega)]
      refine ⟨_, _, rfl, issue_carrying true h hlen ?_⟩
      have hsub : unsignedSub packet.length (env.inet packet).splitPoint =
          packet.length - (env.inet packet).splitPoint := by
        unfold unsignedSub
        omega
      omega
  | unimplemented code =>
    rw [hdt] at ha
    cases ha

theorem pktComplete_finished (env : RxEnv) (desc : RxDesc) (eng : RxDescCache)
    (hp : eng.pktPtr = some packet)
    (hc : eng.correspondingDesc = true) (hb : eng.bytesCopied = packet.length)
    (hs : eng.splitCount = 0) (hn : eng.pending = 0) (hpcss : env.pcss = 0)
    (hdt : env.desctype.implemented = true) :
    ∃ eng' body, pktComplete env desc eng = .ok (eng', body) ∧ Finished packet eng' := by
  unfold pktComplete
  rw [hc, hp, hpcss, hb]
  simp only [sim_ok_bind, simSome_some, Nat.le_refl]
  cases hd : env.desctype with
  | legacy | advOneBuf | advSplitA => exact ⟨_, _, rfl, rfl, rfl, rfl, hs, rfl, hn⟩
  | unimplemented code =>
    rw [hd] at hdt
    cases hdt

theorem dmaEvent_carrying (desc : RxDesc) (h : Carrying packet eng) (hpcss : env.pcss = 0)
    (hdt : env.desctype.implemented = true) :
    ∃ eng' body c, dmaEvent env desc eng = .ok (eng', body, c) ∧
      (c = false ∧ Carrying packet eng' ∨ c = true ∧ Finished packet eng') := by
  have hpos := h.pending_pos
  have hevents := h.events
  unfold dmaEvent
  cases hs : eng.split with
  | false =>
    rw [hs, if_neg Bool.false_ne_true] at hevents
    obtain ⟨eng', body, hok, hf⟩ := pktComplete_finished env desc
      { eng with pending := eng.pending - 1 } h.pktPtr h.correspondingDesc
      h.bytesCopied (show eng.splitCount = 0 by omega) (show eng.pending - 1 = 0 by omega)
      hpcss hdt
    refine ⟨eng', body, true, ?_, .inr ⟨rfl, hf⟩⟩
    simp only
    rw [hs] at hok
    rw [hok]
    rfl
  | true =>
    rw [hs, if_pos rfl] at hevents
    simp only [if_true]
    rw [simAssert_of (decide_eq_true (show eng.splitCount + 1 ≤ 2 by omega))]
    by_cases htwo : eng.splitCount + 1 ≠ 2
    · rw [if_pos htwo]
      refine ⟨_, _, false, rfl, .inl ⟨rfl, h.pktPtr, h.pktWaiting, h.correspondingDesc,
        h.bytesCopied, h.length_pos, ?_, ?_⟩⟩
      · change 0 < eng.pending - 1
        omega
      · change eng.pending - 1 + (eng.splitCount + 1) = 2
        omega
    · rw [if_neg htwo]
      obtain ⟨eng', body, hok, hf⟩ := pktComplete_finished env desc
        { eng with split := true, splitCount := 0, pending := eng.pending - 1 }
        h.pktPtr h.correspondingDesc h.bytesCopied rfl
        (show eng.pending - 1 = 0 by omega) hpcss hdt
      refine ⟨eng', body, true, ?_, .inr ⟨rfl, hf⟩⟩
      rw [hok]
      rfl

end RxDescCache

namespace RxDescCacheGlobal

open DescCacheGlobal (Frame Pools Processing Retired Working)

variable {cfg : Config} {s t : RxDescCacheGlobal} {order : List Nat} {i e : Nat}
  {packet : EthPacket} {env : RxEnv} {eng : RxDescCache}

structure Engines (order : List Nat) (s : RxDescCacheGlobal) : Prop where
  busy : ∀ i p, s.processingPktArray i = some p → i ∈ order ∧
    (s.processingCache i).done = false ∧ s.processingPktDoneArray i = false ∧
    (s.dmaEngineArray i).Carrying p
  rest : ∀ i, s.processingPktArray i = none →
    (s.dmaEngineArray i).Idle ∧ s.processingPktOffsetArray i = 0
  waiting : ∀ i ∈ order, (s.processingCache i).done = false →
    (s.processingPktArray i).isSome = true

namespace Engines

theorem construct (base len : Nat) : Engines [] (construct base len) where
  busy := by
    intro i p hp
    cases hp
  rest := fun _ _ => ⟨RxDescCache.idle_idle, rfl⟩
  waiting := by simp

theorem of_frame {b : DescCacheGlobal RxDesc EthPacket} (h : Engines order s)
    (hf : Frame s.toDescCacheGlobal b) : Engines order { s with toDescCacheGlobal := b } where
  busy := by
    intro i p hp
    simp only [hf.processingCache, hf.processingPktArray] at hp ⊢
    exact h.busy i p hp
  rest := by
    intro i hp
    simp only [hf.processingPktArray] at hp
    exact h.rest i hp
  waiting := by
    intro i hi hd
    simp only [hf.processingCache, hf.processingPktArray] at hd ⊢
    exact h.waiting i hi hd

theorem pkt_of_pending (h : Engines order s) (hp : 0 < (s.dmaEngineArray i).pending) :
    ∃ p, s.processingPktArray i = some p := by
  cases hpkt : s.processingPktArray i with
  | some p => exact ⟨p, rfl⟩
  | none =>
    have := (h.rest i hpkt).1.pending
    omega

end Engines

theorem getFreeDMAEngine_some (h : s.getFreeDMAEngine cfg = some i) :
    i < cfg.numDMAEngines ∧ (s.dmaEngineArray i).pktWaiting = false ∧
      s.processingPktDoneArray i = false ∧ (s.processingCache i).desc = none ∧
      s.processingPktOffsetArray i = 0 ∧ s.processingPktArray i = none := by
  have hlt := mem_range.mp (mem_of_find?_eq_some h)
  have hfree := List.find?_some h
  simp only [isFree, and_eq_true, not_eq_true', isNone_iff_eq_none,
    beq_iff_eq] at hfree
  obtain ⟨⟨⟨⟨hw, hd⟩, hc⟩, ho⟩, hp⟩ := hfree
  exact ⟨hlt, hw, hd, hc, ho, hp⟩

attribute [local simp] setBody setPkt beginProcessing assign

theorem assign_engines {d : Desc RxDesc} {body : RxDesc} (h : Engines order s)
    (hdone : s.processingPktDoneArray i = false) (hc : eng.Carrying packet) :
    Engines (order ++ [i]) (s.assign i packet d eng body) where
  busy := by
    intro j p hj
    by_cases hji : j = i
    · subst hji
      have hpp : packet = p := by
        simpa using hj
      subst hpp
      refine ⟨by simp, ?_, hdone, by simpa using hc⟩
      simp
    · obtain ⟨h₁, h₂, h₃, h₄⟩ := h.busy j p (by
        simpa [hji] using hj)
      refine ⟨mem_append_left _ h₁, ?_, h₃, by simpa [hji] using h₄⟩
      simpa [hji] using h₂
  rest := by
    intro j hj
    have hji : j ≠ i := by
      rintro rfl
      simp at hj
    obtain ⟨h₁, h₂⟩ := h.rest j (by
      simpa [hji] using hj)
    exact ⟨by simpa [hji] using h₁, by simpa [hji] using h₂⟩
  waiting := by
    intro j hj hdj
    by_cases hji : j = i
    · simp [hji]
    · have hjo : j ∈ order := by simpa [hji] using hj
      have hw := h.waiting j hjo (by
        simpa [hji] using hdj)
      simpa [hji] using hw

theorem writePacketGlobal_spec {d : Desc RxDesc} {later : List (Desc RxDesc)}
    (h : Engines order s) (hu : s.unusedCache = d :: later)
    (hfree : s.hasFreeDMAEngine cfg = true) (hlen : 0 < packet.length)
    (ha : RxDescCache.accepts env packet = true) :
    ∃ i eng body, s.writePacketGlobal cfg env packet = .ok (true, s.assign i packet d eng body) ∧
      i < cfg.numDMAEngines ∧ (s.processingCache i).desc = none ∧
      Engines (order ++ [i]) (s.assign i packet d eng body) := by
  obtain ⟨i, hi⟩ := isSome_iff_exists.mp hfree
  obtain ⟨hlt, _, hdone, hdesc, hoff, hpkt⟩ := getFreeDMAEngine_some hi
  obtain ⟨eng, body, hw, hcarry⟩ :=
    RxDescCache.writePacket_accepts d.body (h.rest i hpkt).1 hlen ha
  refine ⟨i, eng, body, ?_, hlt, hdesc, assign_engines h hdone hcarry⟩
  unfold writePacketGlobal
  simp only [hu, hfree, hi, hpkt, hoff, hdone, hdesc, hw, simAssert_true, simSome_some,
    sim_ok_bind, isNone_none, Bool.not_false, beq_self_eq_true, sim_pure]

attribute [local simp] setEngine packetDone markProcessed

theorem setEngine_engines {body : RxDesc} (h : Engines order s)
    (hpkt : s.processingPktArray i = some packet) (hc : eng.Carrying packet) :
    Engines order (s.setEngine i eng body) where
  busy := by
    intro j p hj
    obtain ⟨h₁, h₂, h₃, h₄⟩ := h.busy j p hj
    by_cases hji : j = i
    · subst hji
      obtain rfl : packet = p := mem_unique hpkt hj
      exact ⟨h₁, by simpa using h₂, h₃,
        by simpa using hc⟩
    · exact ⟨h₁, by simpa [hji] using h₂, h₃,
        by simpa [hji] using h₄⟩
  rest := by
    intro j hj
    have hji : j ≠ i := by
      rintro rfl
      have := hpkt.symm.trans hj
      cases this
    obtain ⟨h₁, h₂⟩ := h.rest j hj
    exact ⟨by simpa [hji] using h₁, h₂⟩
  waiting := by
    intro j hj hdj
    apply h.waiting j hj
    by_cases hji : j = i <;> simpa [hji] using hdj

theorem packetDone_engines (i : Nat) (body : RxDesc) (h : Engines order s)
    (hf : eng.Finished packet) : Engines order ((s.setEngine i eng body).packetDone i) where
  busy := by
    intro j p hj
    have hji : j ≠ i := by
      rintro rfl
      simp at hj
    obtain ⟨h₁, h₂, h₃, h₄⟩ := h.busy j p (by
      simpa [hji] using hj)
    refine ⟨h₁, ?_, by simpa [hji] using h₃,
      by simpa [hji] using h₄⟩
    simpa [hji] using h₂
  rest := by
    intro j hj
    by_cases hji : j = i
    · subst hji
      refine ⟨⟨?_, ?_, ?_, ?_, ?_, ?_⟩, by simp⟩
      · simp [hf.pktPtr]
      · simp [hf.pktWaiting]
      · simp [hf.correspondingDesc]
      · simp [hf.splitCount]
      · simp
      · simp [hf.pending]
    · obtain ⟨h₁, h₂⟩ := h.rest j (by
        simpa [hji] using hj)
      exact ⟨by simpa [hji] using h₁,
        by simpa [hji] using h₂⟩
  waiting := by
    intro j hj hdj
    have hji : j ≠ i := by
      rintro rfl
      simp at hdj
    have hw := h.waiting j hj (by
      simpa [hji] using hdj)
    simpa [hji] using hw

theorem Engines.retired {front rest : List Nat} {b : DescCacheGlobal RxDesc EthPacket}
    (h : Engines order s) (hr : Retired cfg order s.toDescCacheGlobal front rest b) :
    Engines rest { s with toDescCacheGlobal := b } := by
  have hpkt : b.processingPktArray = s.processingPktArray := by rw [hr.eq]
  constructor
  · intro j p hj
    simp only [hpkt] at hj
    obtain ⟨h₁, h₂, h₃, h₄⟩ := h.busy j p hj
    have hjr : j ∈ rest := by
      rw [hr.split] at h₁
      rcases mem_append.mp h₁ with hjf | hjr
      · rw [hr.done j hjf] at h₂
        cases h₂
      · exact hjr
    exact ⟨hjr, by rw [hr.same j hjr]; exact h₂, h₃, h₄⟩
  · intro j hj
    simp only [hpkt] at hj
    exact h.rest j hj
  · intro j hj hdj
    simp only [hpkt]
    rw [hr.same j hj] at hdj
    apply h.waiting j _ hdj
    rw [hr.split]
    exact mem_append_right _ hj

theorem dmaEvent_spec (h : Engines order s) (hp : Processing cfg order s.toDescCacheGlobal)
    (hpend : 0 < (s.dmaEngineArray i).pending) (hpcss : env.pcss = 0)
    (hdt : env.desctype.implemented = true) :
    (∃ eng body, s.dmaEvent cfg env i = .ok (s.setEngine i eng body) ∧
      Engines order (s.setEngine i eng body)) ∨ ∃ eng body front rest b, s.dmaEvent cfg env i =
        .ok { (s.setEngine i eng body).packetDone i with toDescCacheGlobal := b } ∧
      i ∈ order ∧
      Retired cfg order ((s.setEngine i eng body).packetDone i).toDescCacheGlobal front rest b ∧
      (∀ j, rest.head? = some j → (b.processingCache j).done = false) ∧
      Engines rest { (s.setEngine i eng body).packetDone i with toDescCacheGlobal := b } := by
  obtain ⟨packet, hpkt⟩ := h.pkt_of_pending hpend
  obtain ⟨hm, _, _, hcarry⟩ := h.busy i packet hpkt
  obtain ⟨eng, body, c, hev, hcase⟩ := RxDescCache.dmaEvent_carrying
    (((s.processingCache i).desc.map Desc.body).getD ⟨0, 0⟩) hcarry hpcss hdt
  have heq : s.dmaEvent cfg env i = if c then onDMAComplete cfg i (s.setEngine i eng body)
      else .ok (s.setEngine i eng body) := by
    simp only [dmaEvent, hev, sim_ok_bind, sim_pure]
  rw [heq]
  rcases hcase with ⟨rfl, hc⟩ | ⟨rfl, hf⟩
  · exact .inl ⟨eng, body, rfl, setEngine_engines h hpkt hc⟩
  · right
    have hengines := packetDone_engines i body h hf
    have hproc : Processing cfg order ((s.setEngine i eng body).packetDone i).toDescCacheGlobal :=
      ((hp.setBody body).markProcessed hm).setPkt none
    obtain ⟨b, front, rest, hb, hr, hhead⟩ := DescCacheGlobal.manageUsedCache_spec hproc
    have hlive : (((s.setEngine i eng body).packetDone i).processingCache i).desc.isSome = true :=
      (hproc.live_iff i).mpr hm
    have hbytes : ((s.setEngine i eng body).dmaEngineArray i).bytesCopied = packet.length := by
      simp [hf.bytesCopied]
    have hpkt' : (s.setEngine i eng body).processingPktArray i = some packet := hpkt
    refine ⟨eng, body, front, rest, b, ?_, hm, hr, ?_, hengines.retired hr⟩
    · simp only [if_true, onDMAComplete, hpkt', hbytes, simSome_some, sim_ok_bind,
        beq_self_eq_true, simAssert_true, hlive]
      rw [simAssert_of (decide_eq_true (hp.lt i hm)),
        simAssert_of (decide_eq_true hcarry.length_pos)]
      simp only [sim_ok_bind, manageUsedCache, hb, sim_pure]
    · intro j hj
      rw [hr.same j (mem_of_mem_head? hj)]
      exact hhead j hj

theorem writePacketGlobal_cases {accepted : Bool}
    (h : s.writePacketGlobal cfg env packet = .ok (accepted, t)) :
    t = s ∨ ∃ i d eng body, s.getFreeDMAEngine cfg = some i ∧ (∃ rest, s.unusedCache = d :: rest) ∧
      t = s.assign i packet d eng body := by
  unfold writePacketGlobal at h
  split at h
  · exact .inl (congrArg Prod.snd (Except.ok.inj h)).symm
  · rename_i d rest hu
    obtain ⟨_, _, h⟩ := bind_eq_ok.mp h
    obtain ⟨i, hi, h⟩ := bind_eq_ok.mp h
    iterate 4 obtain ⟨_, _, h⟩ := bind_eq_ok.mp h
    obtain ⟨⟨eng, body⟩, _, h⟩ := bind_eq_ok.mp h
    exact .inr ⟨i, d, eng, body, simSome_eq_ok.mp hi, ⟨rest, hu⟩,
      (congrArg Prod.snd (Except.ok.inj h)).symm⟩

theorem dmaEvent_cases (h : s.dmaEvent cfg env i = .ok t) :
    ∃ eng body c, (s.dmaEngineArray i).dmaEvent env
        (((s.processingCache i).desc.map Desc.body).getD ⟨0, 0⟩) = .ok (eng, body, c) ∧
      (c = false ∧ t = s.setEngine i eng body ∨ c = true ∧ (s.processingPktArray i).isSome = true ∧
        (s.processingCache i).desc.isSome = true ∧ ∃ b,
          ((s.setEngine i eng body).packetDone i).toDescCacheGlobal.manageUsedCache cfg = .ok b ∧
          t = { (s.setEngine i eng body).packetDone i with toDescCacheGlobal := b }) := by
  obtain ⟨⟨eng, body, c⟩, hev, h⟩ := bind_eq_ok.mp h
  refine ⟨eng, body, c, hev, ?_⟩
  cases c with
  | false => exact .inl ⟨rfl, eq_of_ok h rfl⟩
  | true =>
    obtain ⟨_, _, h⟩ := bind_eq_ok.mp h
    obtain ⟨packet, hp, h⟩ := bind_eq_ok.mp h
    obtain ⟨_, _, h⟩ := bind_eq_ok.mp h
    obtain ⟨_, _, h⟩ := bind_eq_ok.mp h
    obtain ⟨_, hdesc, h⟩ := bind_eq_ok.mp h
    obtain ⟨b, hb, h⟩ := bind_eq_ok.mp h
    have hpkt : s.processingPktArray i = some packet := simSome_eq_ok.mp hp
    have hslot : (s.processingCache i).desc.isSome = true := by
      have hafter := simAssert_eq_ok.mp hdesc
      simpa using hafter
    exact .inr ⟨rfl, by simp [hpkt], hslot, b, hb, eq_of_ok h rfl⟩

theorem hasReadyEthPacket_some (h : s.hasReadyEthPacket cfg = some i) :
    i < cfg.numDMAEngines ∧ s.processingPktDoneArray i = true :=
  ⟨mem_range.mp (mem_of_find?_eq_some h), List.find?_some h⟩

theorem clearDone_cases (h : step cfg s .clearDone = .ok t) :
    ∃ done, t = { s with processingPktDoneArray := done } := by
  unfold step at h
  cases hr : s.hasReadyEthPacket cfg with
  | none =>
    simp only [hr] at h
    exact ⟨s.processingPktDoneArray, eq_of_ok h rfl⟩
  | some i =>
    simp only [hr] at h
    obtain ⟨_, _, h⟩ := bind_eq_ok.mp h
    obtain ⟨_, _, h⟩ := bind_eq_ok.mp h
    exact ⟨_, eq_of_ok h rfl⟩

/-- What a step can do: the transfers of descriptors touch nothing else. -/
theorem step_cases {a : RxAct} (h : step cfg s a = .ok t) :
    (∃ b, Frame s.toDescCacheGlobal b ∧ t = { s with toDescCacheGlobal := b }) ∨
    (a = .clearDone ∧ ∃ done, t = { s with processingPktDoneArray := done }) ∨
    (∃ tail, a = .setTail tail) ∨ (∃ env packet, a = .writePacket env packet) ∨
    (∃ env i, a = .dmaEvent env i) ∨ (∃ r val, a = .areaWrite r val) ∨ a = .reset := by
  cases a with
  | fetchDescriptors =>
    obtain ⟨b, hb, rfl⟩ := onBase_eq_ok.mp h
    exact .inl ⟨b, DescCacheGlobal.fetchDescriptorsGlobal_frame hb, rfl⟩
  | fetchComplete e data =>
    obtain ⟨b, hb, rfl⟩ := onBase_eq_ok.mp h
    exact .inl ⟨b, DescCacheGlobal.fetchComplete_frame hb, rfl⟩
  | writeback mask =>
    obtain ⟨b, hb, rfl⟩ := onBase_eq_ok.mp h
    exact .inl ⟨b, DescCacheGlobal.writebackGlobal_frame hb, rfl⟩
  | writebackComplete e f =>
    obtain ⟨b, hb, rfl⟩ := onBase_eq_ok.mp h
    exact .inl ⟨b, DescCacheGlobal.writebackComplete_frame hb, rfl⟩
  | clearDone => exact .inr (.inl ⟨rfl, clearDone_cases h⟩)
  | setTail | writePacket | dmaEvent | areaWrite | reset => simp

theorem clearDone_spec (cfg : Config) (h : Engines order s) :
    ∃ done, step cfg s .clearDone = .ok { s with processingPktDoneArray := done } ∧
      Engines order { s with processingPktDoneArray := done } := by
  unfold step
  cases hr : s.hasReadyEthPacket cfg with
  | none => exact ⟨s.processingPktDoneArray, rfl, h⟩
  | some i =>
    have hdone := (hasReadyEthPacket_some hr).2
    have hpkt : s.processingPktArray i = none := by
      cases hp : s.processingPktArray i with
      | none => rfl
      | some p =>
        have hbusy := (h.busy i p hp).2.2.1
        rw [hdone] at hbusy
        cases hbusy
    refine ⟨Function.update s.processingPktDoneArray i false, ?_, ?_, h.rest, h.waiting⟩
    · simp [clearDoneEthPacket, hpkt, (h.rest i hpkt).2]
    · intro j p hj
      obtain ⟨h₁, h₂, h₃, h₄⟩ := h.busy j p hj
      refine ⟨h₁, h₂, ?_, h₄⟩
      by_cases hji : j = i
      · simp [hji]
      · simpa [hji] using h₃

end RxDescCacheGlobal

end Gem5.IGbE
