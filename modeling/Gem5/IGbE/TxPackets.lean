import Gem5.IGbE.TxMachine

/-!
# The packets of a transmit queue

The packets an engine holds and those already sent, and what each operation does to
them. `held` lists the descriptors of the packet of an engine, whether or not its DMA
read has ended.
-/

namespace Gem5.IGbE.TxDescCacheGlobal

open List Nat

open Function (update)

open DescCacheGlobal (setPkt taken)

open DescCacheGlobal (Steady Quiet Supplied)

variable {cfg : Config} {env : TxEnv} {s t : TxDescCacheGlobal} {d : Desc TxDesc}
  {p : EthPacketData} {e i : Nat} {o : TxOp} {order : List Nat}

structure PacketSide where
  engines : Nat → TxDescCache
  packets : Nat → Option EthPacketData
  sent : List EthPacketData
  unused : List (Desc TxDesc)
  fetched : List (Nat × Desc TxDesc)
  hdrWaiting : Bool

def packetSide (s : TxDescCacheGlobal) : PacketSide :=
  ⟨s.dmaEngineArray, s.processingPktArray, s.sent, s.unusedCache, s.hist.fetched, s.pktHdrWaiting⟩

theorem retire_packetSide (h : s.retire cfg e = .ok t) : t.packetSide = s.packetSide := by
  obtain ⟨b, hb, rfl⟩ := retire_cases h
  obtain ⟨_, _, _, _, _, rfl⟩ := DescCacheGlobal.manageUsedCache_shape hb
  rfl

def SlotDone (s : TxDescCacheGlobal) (e : Nat) : Prop :=
  (s.processingCache e).desc = none ∨ (s.processingCache e).done = true

def SlotKept (s t : TxDescCacheGlobal) (i : Nat) : Prop :=
  t.processingCache i = s.processingCache i ∨ ((t.processingCache i).desc = none ∧
    ((s.processingCache i).desc = none ∨ (s.processingCache i).done = true))

theorem retire_slots (hs : Steady cfg order s.toDescCacheGlobal)
    (hslot : (s.processingCache e).desc.isSome = true) (h : s.retire cfg e = .ok t) :
    t.SlotDone e ∧ ∀ i, i ≠ e → SlotKept s t i := by
  obtain ⟨b, hb, rfl⟩ := retire_cases h
  obtain ⟨b', front, rest, hb', hm, hr, _⟩ := hs.manageUsedCache hslot
  obtain rfl := eq_of_ok hb' hb
  have hretired := hr.slot (hs.processing.markProcessed hm)
  constructor
  · rcases hretired e with heq | ⟨hnone, _⟩
    · right
      rw [heq]
      simp [DescCacheGlobal.markProcessed]
    · exact .inl hnone
  · intro i hi
    have hsame : (s.toDescCacheGlobal.markProcessed e).processingCache i = s.processingCache i := by
      simp [DescCacheGlobal.markProcessed, hi]
    unfold SlotKept
    rw [← hsame]
    exact hretired i

theorem writebackAfterPacket_packetSide (h : writebackAfterPacket cfg env s = .ok t) :
    t.packetSide = s.packetSide := by
  rcases writebackAfterPacket_cases h with rfl | ⟨m, b, hb, rfl⟩
  · rfl
  · obtain ⟨_, _, _, _, rfl⟩ := DescCacheGlobal.writebackGlobal_shape hb
    rfl

theorem endTso_packetSide (s : TxDescCacheGlobal) : s.endTso.packetSide = s.packetSide := by
  rcases endTso_cases s with heq | ⟨_, _, heq⟩
  · rw [heq]
  · rw [heq]
    rfl

theorem packetDone_packetSide {body : TxDesc} (h : s.packetDone cfg env e body p = .ok t) :
    ∃ data, s.offload env body p.contents = .ok data ∧ t.packetSide =
      { s.packetSide with
        engines := update s.dmaEngineArray e
          { s.dmaEngineArray e with pktDone := true, pktWaiting := false }
        packets := update s.processingPktArray e (some { p with data := data }) } := by
  obtain ⟨_, _, data, u, hdata, hu, ht⟩ := packetDone_cases h
  have hcompleted : u.packetSide = (s.completed env e body p data).packetSide := by
    rcases hu with ⟨_, hu⟩ | ⟨_, _, rfl⟩
    · exact retire_packetSide hu
    · rfl
  refine ⟨data, hdata, ?_⟩
  have hend := (endTso_packetSide u).trans hcompleted
  rw [writebackAfterPacket_packetSide ht]
  simp only [packetSide, PacketSide.mk.injEq] at hend ⊢
  simp [engineDone, setEngine, hend, completed, setPkt, DescCacheGlobal.setBody]

theorem received_packetSide {q : EthPacketData} {v : TxDescCacheGlobal}
    (h : s.received e d p = (q, v)) : q.origins = p.origins ∧ v.packetSide =
      { s.packetSide with packets := update s.processingPktArray e (some q) } := by
  obtain ⟨rfl, rfl⟩ := Prod.mk.inj h
  refine ⟨rfl, ?_⟩
  split <;> rfl

theorem pktComplete_packetSide (h : s.pktComplete cfg env e = .ok t) :
    ∃ p q, s.processingPktArray e = some p ∧ q.origins = p.origins ∧ t.packetSide =
      { s.packetSide with
        engines := update s.dmaEngineArray e
          { s.dmaEngineArray e with
            pktPtr := false, pktDone := true, pktWaiting := false, dmaAddr := 0 }
        packets := update s.processingPktArray e (some q) } := by
  obtain ⟨p, d, q, v, u, _, _, hp, _, _, _, hrec, hcase, rfl⟩ := pktComplete_cases h
  obtain ⟨hq, hv⟩ := received_packetSide hrec
  have hu : ∃ q', q'.origins = q.origins ∧ u.packetSide = { s.packetSide with
      engines := update s.dmaEngineArray e
        { s.dmaEngineArray e with pktDone := true, pktWaiting := false }
      packets := update s.processingPktArray e (some q') } := by
    simp only [packetSide, landed, setPkt, PacketSide.mk.injEq] at hv
    rcases hcase with ⟨_, hu⟩ | ⟨_, hu⟩
    · obtain ⟨_, w, hw, rfl⟩ := partDone_cases hu
      have hw := retire_packetSide hw
      simp only [packetSide, PacketSide.mk.injEq] at hw
      exact ⟨q, rfl, by simp [packetSide, engineDone, setEngine, hw, hv]⟩
    · obtain ⟨data, _, hu⟩ := packetDone_packetSide hu
      refine ⟨{ q with data := data }, rfl, ?_⟩
      rw [hu]
      simp [packetSide, hv]
  obtain ⟨q', hq', hu⟩ := hu
  refine ⟨p, q', hp, hq'.trans hq, ?_⟩
  simp only [packetSide, PacketSide.mk.injEq] at hu ⊢
  simp [setEngine, hu]

def held (s : TxDescCacheGlobal) (e : Nat) : List Nat :=
  ((s.processingPktArray e).map EthPacketData.origins).getD []

theorem held_of_packets (s t : TxDescCacheGlobal) (e : Nat) (packet : Option EthPacketData)
    (h : t.processingPktArray = update s.processingPktArray e packet) :
    t.held = update s.held e ((packet.map EthPacketData.origins).getD []) := by
  funext j
  unfold held
  rw [h]
  by_cases hje : j = e
  · subst hje
    simp
  · simp [hje]

def inPackets (cfg : Config) (s : TxDescCacheGlobal) : List Nat :=
  s.sent.flatMap EthPacketData.origins ++ (List.range cfg.numDMAEngines).flatMap s.held

theorem flatMap_range_update {n : Nat} (f : Nat → List Nat) (x : List Nat) (he : e < n) :
    ∃ rest, ((List.range n).flatMap f).Perm (f e ++ rest) ∧
      ((List.range n).flatMap (update f e x)).Perm (x ++ rest) := by
  have hmem : e ∈ List.range n := mem_range.mpr he
  refine ⟨((List.range n).erase e).flatMap f, ?_, ?_⟩
  · exact (perm_cons_erase hmem).flatMap_right f
  · have hperm := (perm_cons_erase hmem).flatMap_right (update f e x)
    have hrest : ((List.range n).erase e).flatMap (update f e x) =
        ((List.range n).erase e).flatMap f := by
      apply flatMap_congr
      intro i hi
      have hie : i ≠ e := by
        rintro rfl
        exact (nodup_range.not_mem_erase) hi
      rw [Function.update_of_ne hie]
    rw [flatMap_cons, Function.update_self, hrest] at hperm
    exact hperm

theorem getPacketSize_packetSide {n : Nat} (h : s.getPacketSize = .ok (n, t)) :
    t.packetSide = s.packetSide ∧ t.toDescCacheGlobal = s.toDescCacheGlobal := by
  rcases getPacketSize_cases h with ⟨_, _, rfl⟩ | ⟨d, rest, _, hcase⟩
  · exact ⟨rfl, rfl⟩
  · rcases hcase with ⟨_, _, rfl⟩ | ⟨_, _, k, _, _, rfl⟩ <;> exact ⟨rfl, rfl⟩

theorem processContextDesc_packetSide (h : s.processContextDesc env = .ok t) :
    (t.dmaEngineArray, t.processingPktArray, t.sent, t.hist.fetched) =
      (s.dmaEngineArray, s.processingPktArray, s.sent, s.hist.fetched) ∧
    t.unusedCache <:+ s.unusedCache := by
  have hcontexts := takeContexts_keeps (P := fun u => (u.dmaEngineArray, u.processingPktArray,
      u.sent, u.hist.fetched) = (s.dmaEngineArray, s.processingPktArray, s.sent, s.hist.fetched) ∧
      u.unusedCache <:+ s.unusedCache) (s := s) (by
    intro u d rest hu huc _ _
    have hbase := takeContext_base u d
    have heng := takeContext_engines u d
    simp only [Prod.mk.injEq] at heng hu ⊢
    refine ⟨⟨heng.1.trans hu.1.1, ?_, heng.2.2.trans hu.1.2.2.1, ?_⟩, ?_⟩
    · rw [hbase]
      exact hu.1.2.1
    · rw [hbase]
      exact hu.1.2.2.2
    · rw [hbase]
      exact (tail_suffix _).trans hu.2) rfl ⟨rfl, suffix_refl _⟩
  obtain ⟨u, hu, ht⟩ := processContextDesc_cases h
  generalize takeContexts s.unusedCache s = w at hcontexts hu
  rcases hu with rfl | ⟨d, rest, _, _, _, rfl⟩ <;>
    rcases ht with ⟨rfl, _⟩ | ⟨d, rest, _, _, _, _, _, _, rfl⟩ <;> exact hcontexts

theorem processContextDesc_unused (hd : s.takesDirectly (.processContextDesc env) = false)
    (h : s.processContextDesc env = .ok t) : t.unusedCache = s.unusedCache := by
  obtain ⟨u, hu, ht⟩ := processContextDesc_cases h
  rw [takeContexts_eq_self hd] at hu
  rcases hu with rfl | ⟨d, rest, _, _, _, rfl⟩ <;>
    rcases ht with ⟨rfl, _⟩ | ⟨d, rest, _, _, _, _, _, _, rfl⟩ <;> rfl

theorem getPacketDataGlobal_packetSide
    (hidx : ∀ e, s.tsoDMAEngineIdx = some e → e < cfg.numDMAEngines)
    (h : s.getPacketDataGlobal cfg env = .ok t) :
    ∃ e d rest eng p, e < cfg.numDMAEngines ∧ s.unusedCache = d :: rest ∧
      p.origins = s.held e ++ [d.origin] ∧ t.packetSide =
      { s.packetSide with
        engines := update s.dmaEngineArray e eng
        packets := update s.processingPktArray e (some p)
        unused := rest } := by
  obtain ⟨d, rest, hu, _, _, hcase⟩ := getPacketDataGlobal_cases h
  rcases hcase with ⟨_, i, hfree, hpkt, _, _, rfl⟩ | ⟨_, e, p, hp, _, _, _, _, _, _, _, rfl⟩
  · refine ⟨i, d, rest, (s.dmaEngineArray i).reading 0 (env.pciToDma d.body.getBuf) d.body.getLen,
      EthPacketData.fresh.extend d.origin, (getFreeDMAEngine_some hfree).1, hu, ?_, ?_⟩
    · simp [held, hpkt, EthPacketData.extend, EthPacketData.fresh]
    · simp [packetSide, assign, setPkt, DescCacheGlobal.beginProcessing, hu]
  · have horigins : (s.loadHeader p).origins = p.origins := by
      unfold loadHeader
      split <;> rfl
    refine ⟨e, d, rest, (s.dmaEngineArray e).reading (s.loadHeader p).length
      (env.pciToDma d.body.getBuf + s.tsoDescBytesUsed) s.tsoCopyBytes,
      (s.loadHeader p).extend d.origin, ?_, hu, ?_, ?_⟩
    · rcases tsoPacket_cases hp with ⟨_, hfree, _, _⟩ | ⟨he, _⟩
      · exact (getFreeDMAEngine_some hfree).1
      · exact hidx e he
    · simp only [EthPacketData.extend, horigins]
      rcases tsoPacket_cases hp with ⟨_, _, hpkt, rfl⟩ | ⟨_, hpkt⟩
      · simp [held, hpkt, EthPacketData.fresh]
      · simp [held, hpkt]
    · simp [packetSide, assign, setPkt, DescCacheGlobal.beginProcessing, hu]

theorem op_packets {P : Nat → TxDesc → Prop}
    (hk : Kept cfg (fun _ b => Supplied P b) s) (ha : Possible s o) (h : op cfg s o = .ok t) :
    (t.held = s.held ∧ t.sent = s.sent ∧ s.taken ≤ t.taken ∧
      (s.takesDirectly o = false → t.taken = s.taken)) ∨
    (∃ e < cfg.numDMAEngines, (∃ env, o = .getPacketData env) ∧
      t.held = update s.held e (s.held e ++ [s.taken]) ∧ t.sent = s.sent ∧ t.taken = s.taken + 1) ∨
    ∃ e < cfg.numDMAEngines, ∃ p, s.held e = p.origins ∧ t.held = update s.held e [] ∧
      t.sent = s.sent ++ [p] ∧ t.taken = s.taken := by
  obtain ⟨order, hs, hsup⟩ := hk.cache
  cases hc : o.onCache with
  | true =>
    obtain ⟨b, hq, rfl⟩ := op_quiet hc hs ha h
    refine .inl ⟨?_, rfl, hq.taken_eq.ge, fun _ => hq.taken_eq⟩
    funext j
    simp only [held, hq.packets]
  | false =>
    cases o with
    | processContextDesc env =>
      obtain ⟨hsame, hsuffix⟩ := processContextDesc_packetSide h
      simp only [Prod.mk.injEq] at hsame
      refine .inl ⟨?_, hsame.2.2.1, ?_, ?_⟩
      · funext j
        simp only [held, hsame.2.1]
      · have := hsuffix.length_le
        simp only [taken, hsame.2.2.2]
        omega
      · intro hdirect
        simp only [taken, hsame.2.2.2, processContextDesc_unused hdirect h]
    | headerComplete env =>
      obtain ⟨d, rest, hu, ⟨_, rfl⟩ | ⟨_, rfl⟩⟩ := headerComplete_cases h
      · refine .inl ⟨rfl, rfl, ?_, ?_⟩
        · simp only [taken, DescCacheGlobal.useDirectly, DescCacheGlobal.pushUsed, length_tail]
          omega
        · intro hdirect
          rename_i hlen
          simp [takesDirectly, hu, hlen] at hdirect
      · exact .inl ⟨rfl, rfl, le_rfl, fun _ => rfl⟩
    | getPacketSize =>
      obtain ⟨⟨n, u⟩, hu, h⟩ := bind_eq_ok.mp h
      obtain rfl := Except.ok.inj h
      obtain ⟨hside, hbase⟩ := getPacketSize_packetSide hu
      simp only [packetSide, PacketSide.mk.injEq] at hside
      have htaken : u.taken = s.taken := congrArg taken hbase
      refine .inl ⟨?_, hside.2.2.1, htaken.ge, fun _ => htaken⟩
      funext j
      simp only [held, hside.2.1]
    | getPacketData env =>
      obtain ⟨e, d, rest, eng, p, he, hu, hp, hside⟩ := getPacketDataGlobal_packetSide hk.engine h
      simp only [packetSide, PacketSide.mk.injEq] at hside
      refine .inr (Or.inl ⟨e, he, ⟨env, rfl⟩, ?_, hside.2.2.1, ?_⟩)
      · rw [held_of_packets s t e _ hside.2.1, ← (hsup.front hu).1]
        simp [hp]
      · have hle := hsup.length_le
        rw [hu, length_cons] at hle
        simp only [taken, hside.2.2.2.1, hside.2.2.2.2.1, hu, length_cons]
        omega
    | pktComplete env e =>
      obtain ⟨p, q, hp, hq, hside⟩ := pktComplete_packetSide h
      simp only [packetSide, PacketSide.mk.injEq] at hside
      have htaken : t.taken = s.taken := by
        simp only [taken, hside.2.2.2.1, hside.2.2.2.2.1]
      refine .inl ⟨?_, hside.2.2.1, htaken.ge, fun _ => htaken⟩
      rw [held_of_packets s t e _ hside.2.1]
      apply Function.update_eq_self_iff.mpr
      simp [held, hp, hq]
    | pushReady env ok =>
      obtain ⟨i, p, b, hi, hp, _, hb, rfl⟩ := pushReady_cases h
      have hq := Quiet.writebackGlobal hb
      refine .inr (Or.inr ⟨i, (readyEngine_some hi).1, p, ?_, ?_, rfl, ?_⟩)
      · simp [held, hp]
      · exact held_of_packets s _ i none hq.packets
      · exact hq.taken_eq
    | setTail tail => cases hc
    | fetchDescriptors => cases hc
    | fetchComplete e data => cases hc
    | writeback mask => cases hc
    | writebackComplete e f => cases hc

/-! No function stops for the sake of the descriptor cache. -/

section

variable (hs : Steady cfg order s.toDescCacheGlobal)
include hs

theorem onBase_writeback_returns (m : BitVec 64) :
    ∃ t, s.onBase (DescCacheGlobal.writebackGlobal cfg m) = .ok t := by
  obtain ⟨b, hb⟩ := DescCacheGlobal.writebackGlobal_returns hs.pools.wb_wf hs.pools.wb_le m
  exact ⟨_, onBase_eq_ok.mpr ⟨b, hb, rfl⟩⟩

theorem writebackAfterPacket_returns (env : TxEnv) :
    ∃ t, writebackAfterPacket cfg env s = .ok t := by
  unfold writebackAfterPacket
  split
  · exact onBase_writeback_returns hs 0
  · split
    · exact onBase_writeback_returns hs _
    · split
      · exact onBase_writeback_returns hs _
      · exact ⟨s, rfl⟩

theorem retire_returns (hslot : (s.processingCache e).desc.isSome = true) :
    ∃ t rest, s.retire cfg e = .ok t ∧ Steady cfg rest t.toDescCacheGlobal := by
  obtain ⟨b, front, rest, hb, hm, hr, hset⟩ := hs.manageUsedCache hslot
  refine ⟨{ s with toDescCacheGlobal := b, tsoDescBytesUsed := 0 }, rest, ?_, hs.retire hr hset⟩
  unfold retire manageUsedCache onBase
  rw [hb]
  rfl

theorem packetDone_returns {body : TxDesc} {data : List UInt8}
    (hslot : (s.processingCache e).desc.isSome = true) (hvle : body.vle = false)
    (heop : (s.useTso || body.eop) = true) (hdata : s.offload env body p.contents = .ok data) :
    ∃ t, s.packetDone cfg env e body p = .ok t := by
  have hs' : Steady cfg order (s.completed env e body p data).toDescCacheGlobal :=
    (hs.setBody e _).setPkt e _
  have hslot' : ((s.completed env e body p data).processingCache e).desc.isSome = true := by
    simpa [completed, setPkt, DescCacheGlobal.setBody] using hslot
  obtain ⟨u, order', hu, hsu⟩ : ∃ u order',
      (s.completed env e body p data).retireUsedUp cfg e body =
      .ok u ∧ Steady cfg order' u.toDescCacheGlobal := by
    unfold retireUsedUp
    split
    · exact retire_returns hs' hslot'
    · exact ⟨_, order, rfl, hs'⟩
  have hend : Steady cfg order' (u.endTso.engineDone e).toDescCacheGlobal := by
    rcases endTso_cases u with heq | ⟨_, _, heq⟩
    · rw [heq]
      exact hsu
    · rw [heq]
      exact hsu
  obtain ⟨t, ht⟩ := writebackAfterPacket_returns
    (s := { u.endTso.engineDone e with tsoPktHasHeader := false }) hend env
  refine ⟨t, ?_⟩
  unfold packetDone
  rw [hvle, heop, hdata]
  simp only [sim_ok_bind, hu]
  exact ht

end

theorem readyEngine_isSome (he : e < cfg.numDMAEngines) (hr : s.isReady e = true) :
    ∃ i, s.readyEngine cfg = some i := by
  apply Option.isSome_iff_exists.mp
  unfold readyEngine
  rw [List.find?_isSome]
  refine ⟨e, mem_map.mpr ⟨(e + (cfg.numDMAEngines -
    s.roundRobinIdx % cfg.numDMAEngines)) % cfg.numDMAEngines, ?_, ?_⟩, hr⟩
  · exact mem_range.mpr (mod_lt _ cfg.dma_pos)
  · have hdiv := div_add_mod s.roundRobinIdx cfg.numDMAEngines
    have hlt := mod_lt s.roundRobinIdx cfg.dma_pos
    have hsum : s.roundRobinIdx + (e + (cfg.numDMAEngines - s.roundRobinIdx % cfg.numDMAEngines)) =
        e + cfg.numDMAEngines * (s.roundRobinIdx / cfg.numDMAEngines + 1) := by
      rw [mul_succ]
      omega
    rw [add_mod_mod, hsum, add_mul_mod_self_left, mod_eq_of_lt he]

theorem hasReadyEthPacket_iff :
    s.hasReadyEthPacket cfg = true ↔ ∃ e < cfg.numDMAEngines, s.isReady e = true := by
  simp [hasReadyEthPacket]

theorem pushReady_returns (hs : Steady cfg order s.toDescCacheGlobal) (env : TxEnv)
    (hwait : ∀ i, s.isReady i = true → (s.dmaEngineArray i).pktWaiting = false)
    (h : s.hasReadyEthPacket cfg = true) : ∃ t, s.pushReady cfg env true = .ok t := by
  obtain ⟨e, he, hr⟩ := hasReadyEthPacket_iff.mp h
  obtain ⟨i, hi⟩ := readyEngine_isSome he hr
  have hri := (readyEngine_some hi).2
  obtain ⟨p, hp, _⟩ : ∃ p, s.processingPktArray i = some p ∧ 0 < p.length := by
    simp only [isReady, Bool.and_eq_true, Option.any_eq_true, decide_eq_true_eq] at hri
    exact hri.2
  obtain ⟨u, hget, hu⟩ : ∃ u, s.getReadyEthPacket cfg = .ok (p, u) ∧
      u.toDescCacheGlobal = s.setPkt i none := by
    unfold getReadyEthPacket
    rw [hi]
    simp only [simSome_some, sim_ok_bind, hp, hwait i hri]
    exact ⟨_, rfl, rfl⟩
  obtain ⟨t, ht⟩ := onBase_writeback_returns (s := { u with sent := u.sent ++ [p] })
    (hu ▸ hs.setPkt i none) env.blockMask
  exact ⟨t, map_eq_ok.mpr ⟨(t, ()), pushReadyTo_eq_ok.mpr ⟨p, u, hget, rfl, ht⟩, rfl⟩⟩

end Gem5.IGbE.TxDescCacheGlobal
