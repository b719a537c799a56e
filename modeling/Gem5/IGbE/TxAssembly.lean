import Gem5.IGbE.TxFrames

/-!
# Every frame is assembled and sent

`TxFrames` says what a queue that only gets frames can do; here is what it will do. No
assert fails for frames the device accepts, so the queue gets from any state to one in
which every frame fetched has been sent. Without the restriction to frames of one
descriptor the queue sends the parts of a frame as packets of their own.
-/

namespace Gem5.IGbE.TxDescCacheGlobal

open List Option

open DescCacheGlobal (Steady Quiet Supplied)

variable {cfg : Config} {env : TxEnv} {s t : TxDescCacheGlobal} {d : Desc TxDesc}
  {p : EthPacketData} {e i : Nat} {order : List Nat} {good : TxDesc → Prop}

/-- Only descriptors with property `good` arrive, and the host memory stays as it is. -/
def FrameAct (env : TxEnv) (good : TxDesc → Prop) (s : TxDescCacheGlobal) : TxAct → Prop
  | .event o => o.external = true ∧ FrameOp env good s o
  | .tick env' _ => env'.SameHost env

theorem FrameAct.ticked {env' : TxEnv} (hh : env'.SameHost env) {u : TxDescCacheGlobal} {o : TxOp}
    (h : Ticked env' u o) : FrameOp env good u o := by
  cases o with
  | writeback mask | fetchDescriptors | getPacketSize
  | processContextDesc env'' => exact ⟨trivial, trivial⟩
  | getPacketData env'' =>
    obtain ⟨rfl, _⟩ := h
    exact ⟨trivial, hh⟩
  | pushReady env'' ok => exact ⟨trivial, trivial⟩
  | setTail tail | fetchComplete e data | writebackComplete e f | headerComplete env''
  | pktComplete env'' e => cases h

theorem FrameAct.occurs (s : TxDescCacheGlobal) (a : TxAct) (h : FrameAct env good s a) :
    Occurs s a := by
  cases a with
  | event o => exact ⟨h.1, h.2.1⟩
  | tick env' k => trivial

theorem FrameAct.imp {good' : TxDesc → Prop} (himp : ∀ d, good d → good' d)
    (s : TxDescCacheGlobal) (a : TxAct) (h : FrameAct env good s a) : FrameAct env good' s a := by
  cases a with
  | tick env' k => exact h
  | event o =>
    refine ⟨h.1, h.2.1, ?_⟩
    have hdata := h.2.2
    cases o with
    | fetchComplete e data => exact fun d hd => himp d (hdata d hd)
    | _ => exact hdata

def turn : TxTick := ⟨true, true, ethPacketSize + 1, true⟩

theorem tick_push (h : s.hasReadyEthPacket cfg = true) :
    s.tick cfg env turn = s.pushReady cfg env true := by
  simp [tick, pushReady, txStateMachine, turn, h, pushReadyTo, TxTick.txFifo]

namespace Framing

theorem waiting_of_ready (h : Framing cfg env good s) (hr : s.isReady i = true) :
    (s.dmaEngineArray i).pktWaiting = false := by
  cases h.engines i with
  | vacant _ hwait _ _ _ => exact hwait
  | reading _ _ _ hdone _ _ _ _ _ _ _ => simp [isReady, hdone] at hr
  | ready _ _ hwait _ _ _ _ _ => exact hwait

theorem hasReady_of_done (h : Framing cfg env good s) (he : e < cfg.numDMAEngines)
    (hdone : (s.dmaEngineArray e).pktDone = true) : s.hasReadyEthPacket cfg = true := by
  have hplain := h.plain
  simp only [Prod.mk.injEq] at hplain
  refine hasReadyEthPacket_iff.mpr ⟨e, he, ?_⟩
  cases h.engines e with
  | vacant _ _ hdone' _ _ | reading _ _ _ hdone' _ _ _ _ _ _ _ =>
    rw [hdone] at hdone'
    cases hdone'
  | ready p _ _ _ hpkt hlen _ _ => simp [isReady, hplain.2.1, hdone, hpkt, hlen]

theorem push (h : Framing cfg env good s) (hr : s.hasReadyEthPacket cfg = true) :
    ∃ t, s.tick cfg env turn = .ok t ∧ t.sent.length = s.sent.length + 1 ∧
      t.hist.fetched = s.hist.fetched := by
  obtain ⟨order, hs, _⟩ := h.kept.cache
  obtain ⟨t, ht⟩ := pushReady_returns hs env (fun i => h.waiting_of_ready) hr
  refine ⟨t, (tick_push hr).trans ht, ?_⟩
  obtain ⟨i, p, b, _, _, _, hb, rfl⟩ := pushReady_cases ht
  obtain ⟨_, _, _, _, rfl⟩ := DescCacheGlobal.writebackGlobal_shape hb
  exact ⟨by simp, rfl⟩

theorem vacant_of_free (h : Framing cfg env good s) (hfree : s.getFreeDMAEngine cfg = some i) :
    s.processingPktArray i = none ∧ (s.dmaEngineArray i).pktPtr = false := by
  obtain ⟨_, _, hdone, hdesc⟩ := getFreeDMAEngine_some hfree
  cases h.engines i with
  | vacant hptr _ _ hpkt _ => exact ⟨hpkt, hptr⟩
  | reading _ _ _ _ _ hdesc' _ _ _ _ _ =>
    rw [hdesc] at hdesc'
    cases hdesc'
  | ready _ _ _ hdone' _ _ _ _ =>
    rw [hdone] at hdone'
    cases hdone'

theorem lt_of_desc (hs : Steady cfg order s.toDescCacheGlobal)
    (hdesc : (s.processingCache e).desc = some d) : e < cfg.numDMAEngines :=
  hs.processing.lt e ((hs.processing.live_iff e).mp (isSome_of_eq_some hdesc))

theorem slot_none (h : Framing cfg env good s)
    (hv : ∀ e, (s.dmaEngineArray e).pktPtr = false) : (s.processingCache e).desc = none := by
  obtain ⟨order, hs, _⟩ := h.kept.cache
  have hdone : ∀ i, s.SlotDone i := by
    intro i
    cases h.engines i with
    | vacant _ _ _ _ hslot => exact hslot
    | reading _ _ hptr _ _ _ _ _ _ _ _ =>
      rw [hv i] at hptr
      cases hptr
    | ready _ _ _ _ _ _ _ hslot => exact hslot
  -- the oldest descriptor in processing is not done, so there is none
  have hnil : order = [] := by
    cases order with
    | nil => rfl
    | cons i rest =>
      have hbusy := hs.settled i rfl
      have hlive := (hs.processing.live_iff i).mpr mem_cons_self
      rcases hdone i with hnone | hd
      · rw [hnone] at hlive
        cases hlive
      · rw [hbusy] at hd
        cases hd
  have hlive := hs.processing.live_iff e
  rw [hnil] at hlive
  simpa using hlive

variable (hgood : ∀ d, good d → d.isFrame = true ∧ env.Accepts d)
include hgood

theorem complete (h : Framing cfg env good s) (hptr : (s.dmaEngineArray e).pktPtr = true) :
    ∃ t, s.pktComplete cfg env e = .ok t := by
  obtain ⟨order, hs, hsup⟩ := h.kept.cache
  have hplain := h.plain
  simp only [Prod.mk.injEq] at hplain
  cases h.engines e with
  | vacant hptr' _ _ _ _ | ready _ hptr' _ _ _ _ _ _ =>
    rw [hptr'] at hptr
    cases hptr
  | reading slot d _ _ hpkt hdesc _ hoff haddr hsize hd =>
    obtain ⟨hframe, haccepts⟩ := hgood _ (hsup.fetched _ (mem_of_getElem? hd))
    simp only [TxDesc.isFrame, Bool.and_eq_true] at hframe
    obtain ⟨data, hdata⟩ := haccepts.checksum
    have hread : (env.read (env.pciToDma d.body.getBuf) d.body.getLen).length = d.body.getLen :=
      env.buffer_length d.body
    have hrec := received_plain (e := e) (d := d) (p := EthPacketData.storeAt 0
      (env.read (env.pciToDma d.body.getBuf) d.body.getLen) (EthPacketData.fresh.extend d.origin))
      (show (s.landed env e).useTso = false from hplain.1)
    obtain ⟨u, hu⟩ := packetDone_returns (s := { s.landed env e with
        toDescCacheGlobal := (s.landed env e).setPkt e _ }) ((hs.setPkt e _).setPkt e _)
      (show ((s.processingCache e).desc).isSome = true from isSome_of_eq_some hdesc)
      haccepts.vle (by rw [hframe.1.2, Bool.or_true]) (by
        unfold offload
        rw [if_neg (by simp [landed, hplain.1]), EthPacketData.contents_of_buffer d.origin hread]
        exact hdata)
    refine ⟨_, pktComplete_of hptr (lt_of_desc hs hdesc) hpkt hdesc hframe.1.1
      (Nat.pos_iff_ne_zero.mp haccepts.pos) (by rw [hoff, haddr, hsize]; exact hrec)
      (Or.inr ⟨?_, hu⟩)⟩
    simp [moreToCome, hframe.1.2, landed, hplain.1]

theorem start {rest : List (Desc TxDesc)} (h : Framing cfg env good s)
    (hr : s.hasReadyEthPacket cfg = false) (hfree : s.getFreeDMAEngine cfg = some i)
    (hu : s.unusedCache = d :: rest) :
    s.tick cfg env turn = .ok (s.assign i d .fresh ((s.dmaEngineArray i).reading 0
      (env.pciToDma d.body.getBuf) d.body.getLen)) := by
  have hplain := h.plain
  simp only [Prod.mk.injEq] at hplain
  obtain ⟨_, hwait, _, hdesc⟩ := getFreeDMAEngine_some hfree
  obtain ⟨hpkt, hptr⟩ := h.vacant_of_free hfree
  have hframes : ∀ d, good d → d.isFrame = true := fun d hd => (hgood d hd).1
  obtain ⟨hframe, hd, _⟩ := h.front hframes hu
  have haccepts := (hgood _ hd).2
  simp only [TxDesc.isFrame, Bool.and_eq_true] at hframe
  have hlen : (d.body.getLen != 0) = true := by
    simpa using Nat.pos_iff_ne_zero.mp haccepts.pos
  have hfits := haccepts.fits
  have hhas : s.hasFreeDMAEngine cfg = .ok true := by
    simp [hasFreeDMAEngine, hplain.1, hfree]
  have hleft : s.descLeft cfg ≠ 0 := by
    simp [DescCacheGlobal.descLeft, hu]
  have hunused : s.descUnused cfg ≠ 0 := by
    simp [DescCacheGlobal.descUnused, hu]
  have hsize : s.getPacketSize = .ok (d.body.getLen, s) := by
    simp [getPacketSize, hu, hplain.1]
  have hdata : s.getPacketDataGlobal cfg env = .ok (s.assign i d .fresh
      ((s.dmaEngineArray i).reading 0 (env.pciToDma d.body.getBuf) d.body.getLen)) := by
    have hread : (s.dmaEngineArray i).getPacketData 0 (env.pciToDma d.body.getBuf) d.body.getLen =
        .ok ((s.dmaEngineArray i).reading 0 (env.pciToDma d.body.getBuf) d.body.getLen) :=
      getPacketData_eq_ok.mpr ⟨hptr, hwait, by simpa using hfits, rfl⟩
    simp [getPacketDataGlobal, hu, hframe.1.1, hlen, hplain.1, getPlainData, freshEngine, hhas,
      hfree, hpkt, hdesc, hread]
  unfold tick txStateMachine
  simp only [turn, Bool.not_true, Bool.false_eq_true, if_false, hr, hplain.2.2, hhas, sim_ok_bind,
    if_true, if_neg hleft, if_neg hunused, h.processContextDesc_eq hframes env, nextPacket, hsize,
    TxTick.txFifo, sim_pure, hdata]
  rw [if_pos ⟨haccepts.pos, Nat.lt_succ_of_le hfits⟩]
  rfl

abbrev Goes (cfg : Config) (env : TxEnv) (s t : TxDescCacheGlobal) : Prop :=
  Reach (TxDescCacheGlobal.step cfg) (FrameAct env fun _ => False) s t

def SendsOne (cfg : Config) (env : TxEnv) (good : TxDesc → Prop) (s : TxDescCacheGlobal) : Prop :=
  ∃ t, Goes cfg env s t ∧ Framing cfg env good t ∧ t.hist.fetched = s.hist.fetched ∧
    t.sent.length = s.sent.length + 1

omit hgood in
theorem act {a : TxAct} (hgood : ∀ d, good d → d.isFrame = true) (h : Framing cfg env good s)
    (ha : FrameAct env good s a) (hs : TxDescCacheGlobal.step cfg s a = .ok t) :
    Framing cfg env good t := by
  cases a with
  | event o => exact h.step hgood ha.2 hs
  | tick env' k =>
    exact ((tick_run hs).mono fun _ _ ho => FrameAct.ticked ha ho).invariant h
      (fun hu hao hst => hu.step hgood hao hst)

theorem goes_push (h : Framing cfg env good s) (hr : s.hasReadyEthPacket cfg = true) :
    SendsOne cfg env good s := by
  obtain ⟨t, ht, hsent, hfetched⟩ := h.push hr
  have hh : env.SameHost env := TxEnv.SameHost.refl env
  exact ⟨t, Reach.single (a := .tick env turn) hh ht,
    h.act (fun d hd => (hgood d hd).1) (a := .tick env turn) hh ht, hfetched, hsent⟩

theorem goes_complete (h : Framing cfg env good s) (hptr : (s.dmaEngineArray e).pktPtr = true) :
    SendsOne cfg env good s := by
  obtain ⟨u, hu⟩ := h.complete hgood hptr
  have hh : env.SameHost env := TxEnv.SameHost.refl env
  have hframes : ∀ d, good d → d.isFrame = true := fun d hd => (hgood d hd).1
  have hfu := h.act hframes (a := .event (.pktComplete env e)) ⟨rfl, hptr, hh⟩ hu
  have hgo : Goes cfg env s u :=
    Reach.single (a := .event (.pktComplete env e)) ⟨rfl, hptr, hh⟩ hu
  obtain ⟨_, _, _, _, hside⟩ := pktComplete_packetSide hu
  simp only [packetSide, PacketSide.mk.injEq] at hside
  have hready : u.hasReadyEthPacket cfg = true := by
    obtain ⟨_, _, _, _, _, _, hlt, _⟩ := pktComplete_cases hu
    exact hfu.hasReady_of_done hlt (by simp [hside.1])
  obtain ⟨t, hgt, hft, hfetched, hsent⟩ := hfu.goes_push hgood hready
  refine ⟨t, hgo.trans hgt, hft, hfetched.trans hside.2.2.2.2.1, ?_⟩
  rw [hsent, hside.2.2.1]

theorem goes_one (h : Framing cfg env good s)
    (hmore : s.unusedCache ≠ [] ∨ ∃ e < cfg.numDMAEngines, s.processingPktArray e ≠ none) :
    SendsOne cfg env good s := by
  have hframes : ∀ d, good d → d.isFrame = true := fun d hd => (hgood d hd).1
  cases hr : s.hasReadyEthPacket cfg with
  | true => exact h.goes_push hgood hr
  | false =>
    by_cases hread : ∃ e, (s.dmaEngineArray e).pktPtr = true
    · obtain ⟨e, hptr⟩ := hread
      exact h.goes_complete hgood hptr
    · have hptr : ∀ e, (s.dmaEngineArray e).pktPtr = false := by
        intro e
        simpa using not_exists.mp hread e
      have hvacant : ∀ e < cfg.numDMAEngines, s.processingPktArray e = none ∧
          s.isFree e = true := by
        intro e he
        have hslot := h.slot_none hptr (e := e)
        cases h.engines e with
        | vacant _ hwait hdone hpkt _ => exact ⟨hpkt, by simp [isFree, hwait, hdone, hslot]⟩
        | reading _ _ hptr' _ _ _ _ _ _ _ _ =>
          rw [hptr e] at hptr'
          cases hptr'
        | ready p _ _ hdone _ _ _ _ =>
          have := h.hasReady_of_done he hdone
          rw [hr] at this
          cases this
      have hunused : s.unusedCache ≠ [] := by
        rcases hmore with hu | ⟨e, he, hpkt⟩
        · exact hu
        · exact absurd (hvacant e he).1 hpkt
      obtain ⟨d, rest, hu⟩ := exists_cons_of_ne_nil hunused
      obtain ⟨i, hfree⟩ : ∃ i, s.getFreeDMAEngine cfg = some i := by
        apply isSome_iff_exists.mp
        unfold getFreeDMAEngine
        rw [List.find?_isSome]
        exact ⟨0, mem_range.mpr cfg.dma_pos, (hvacant 0 cfg.dma_pos).2⟩
      have hstart := h.start hgood hr hfree hu
      have hh : env.SameHost env := TxEnv.SameHost.refl env
      have hfu := h.act hframes (a := .tick env turn) hh hstart
      obtain ⟨t, hgt, hft, hfetched, hsent⟩ := hfu.goes_complete hgood (e := i)
        (by simp [assign, TxDescCache.reading])
      exact ⟨t, (Reach.single (a := .tick env turn) hh hstart).trans hgt, hft, hfetched, hsent⟩

omit hgood in
/-- Packets are counted by their descriptors. -/
theorem sent_length_le (h : Framing cfg env good s) : s.sent.length ≤ s.hist.fetched.length := by
  have hlen := h.once.length_eq
  have hone : s.sent.map (fun p => p.origins.length) = s.sent.map fun _ => 1 := by
    apply map_congr_left
    intro p hp
    obtain ⟨k, _, _, _, ho, _⟩ := h.sent p hp
    rw [ho]
    rfl
  simp only [inPackets, length_append, length_flatMap, length_range, hone,
    map_const', sum_replicate, smul_eq_mul, DescCacheGlobal.taken] at hlen
  omega

theorem goes_all : ∀ {m : Nat} {s : TxDescCacheGlobal}, Framing cfg env good s →
    s.hist.fetched.length - s.sent.length = m →
    ∃ t, Goes cfg env s t ∧ Framing cfg env good t ∧ t.hist.fetched = s.hist.fetched ∧
      t.unusedCache = [] ∧ ∀ e < cfg.numDMAEngines, t.processingPktArray e = none := by
  intro m
  induction m using Nat.strong_induction_on with
  | _ m ih =>
    intro s h hm
    by_cases hmore : s.unusedCache ≠ [] ∨ ∃ e < cfg.numDMAEngines, s.processingPktArray e ≠ none
    · obtain ⟨u, hgu, hfu, hfetched, hsent⟩ := h.goes_one hgood hmore
      have hle := hfu.sent_length_le
      rw [hfetched] at hle
      obtain ⟨t, hgt, hft, hfetched', hdone⟩ := ih _ (by rw [hfetched]; omega) hfu rfl
      exact ⟨t, hgu.trans hgt, hft, hfetched'.trans hfetched, hdone⟩
    · simp only [not_or, not_not, not_exists, not_and] at hmore
      exact ⟨s, Reach.refl s, h, rfl, hmore.1, hmore.2⟩

end Framing

structure Assembled (cfg : Config) (env : TxEnv) (s : TxDescCacheGlobal) : Prop where
  sent : ∀ p ∈ s.sent, IsFrame env s p
  verbatim : ∀ p ∈ s.sent, ∀ k slot d, p.origins = [k] → s.hist.fetched[k]? = some (slot, d) →
    d.body.ixsm = false → d.body.txsm = false → p.contents = env.buffer d.body
  once : EachOnce cfg s
  ready : ∀ e p, (s.dmaEngineArray e).pktPtr = false → s.processingPktArray e = some p →
    IsFrame env s p ∧ s.isReady e = true
  unfinished : ∀ e < cfg.numDMAEngines, (s.dmaEngineArray e).pktPtr = true → ∀ k ∈ s.held e,
    ∀ p ∈ s.sent, k ∉ p.origins

theorem Framing.assembled (h : Framing cfg env good s) : Assembled cfg env s where
  sent := h.sent
  verbatim := by
    intro p hp k slot d ho hd hi ht
    obtain ⟨k', slot', d', hd', ho', hc⟩ := h.sent p hp
    obtain rfl : k = k' := by simpa [ho] using ho'
    obtain ⟨rfl, rfl⟩ := Prod.mk.inj (mem_unique hd hd')
    rw [Headers.checksum_verbatim _ hi ht] at hc
    exact eq_of_ok hc rfl
  once := h.once
  ready := by
    intro e p hptr hp
    have hplain := h.plain
    simp only [Prod.mk.injEq] at hplain
    cases h.engines e with
    | vacant _ _ _ hpkt _ =>
      rw [hpkt] at hp
      cases hp
    | reading _ _ hptr' _ _ _ _ _ _ _ _ =>
      rw [hptr] at hptr'
      cases hptr'
    | ready q _ _ hdone hpkt hlen hframe _ =>
      obtain rfl := mem_unique hpkt hp
      exact ⟨hframe, by simp [isReady, hplain.2.1, hdone, hpkt, hlen]⟩
  unfinished := by
    intro e he _ k hk p hp hmem
    have hnodup := h.once.nodup_iff.mpr nodup_range
    have hdisjoint := (nodup_append.mp hnodup).2.2
    exact hdisjoint k (mem_flatMap.mpr ⟨p, hp, hmem⟩) k
      (mem_flatMap.mpr ⟨e, mem_range.mpr he, hk⟩) rfl

theorem framing_reach {base len : Nat} (hgood : ∀ d, good d → d.isFrame = true)
    (h : Reach (step cfg) (FrameAct env good) (construct base len) s) : Framing cfg env good s :=
  h.invariant (Framing.construct cfg env good base len) fun hu ha hs => hu.act hgood ha hs

/-- In every run in which only frames of one descriptor are fetched, every packet sent is
the buffer of one of them, and every descriptor taken is in exactly one packet; if the
device accepts the descriptors, the queue can go on to send every frame it has fetched,
each once. -/
theorem frame_assembly (cfg : Config) (env : TxEnv) (base len : Nat) :
    (∀ s, Reach (step cfg) (FrameAct env fun d => d.isFrame = true) (construct base len) s →
      Assembled cfg env s) ∧
    (∀ s, Reach (step cfg) (FrameAct env fun d => d.isFrame = true ∧ env.Accepts d)
        (construct base len) s →
      ∃ t, Reach (step cfg) (FrameAct env fun _ => False) s t ∧ Assembled cfg env t ∧
        t.hist.fetched = s.hist.fetched ∧
        (t.sent.flatMap EthPacketData.origins).Perm (List.range s.hist.fetched.length)) := by
  constructor
  · intro s h
    exact (framing_reach (fun _ hd => hd) h).assembled
  · intro s h
    have hf := framing_reach (fun _ hd => hd.1) h
    obtain ⟨t, hgo, hft, hfetched, hunused, hnone⟩ := hf.goes_all (fun _ hd => hd) rfl
    refine ⟨t, hgo, hft.assembled, hfetched, ?_⟩
    have honce := hft.once
    have hheld : (List.range cfg.numDMAEngines).flatMap t.held = [] := by
      apply flatMap_eq_nil_iff.mpr
      intro e he
      simp [held, hnone e (mem_range.mp he)]
    unfold EachOnce inPackets DescCacheGlobal.taken at honce
    rw [hheld, hunused, hfetched] at honce
    simpa using honce

def partDesc (buf : BitVec 64) : TxDesc := ⟨buf, 0x20100001⟩

/-- Two frames are fetched; then the queue ticks (`none`) and DMA reads end. -/
def twoFrames (acts : List (Option Nat)) : List TxAct :=
  [.event (.setTail 2), .event .fetchDescriptors,
    .event (.fetchComplete 0 [frameDesc 1, frameDesc 2])] ++
    acts.map fun a => a.elim (.tick plainEnv turn) fun e => .event (.pktComplete plainEnv e)

theorem twoFrames_frameAct (acts : List (Option Nat)) : ∀ a ∈ twoFrames acts, ∀ s, Occurs s a →
    FrameAct plainEnv (fun d => d.isFrame = true) s a := by
  have hh : plainEnv.SameHost plainEnv := TxEnv.SameHost.refl _
  intro a ha s hocc
  simp only [twoFrames, mem_append, mem_cons, not_mem_nil, or_false, List.mem_map] at ha
  rcases ha with (rfl | rfl | rfl) | ⟨e, _, rfl⟩
  · exact ⟨rfl, hocc.2, trivial⟩
  · exact ⟨rfl, hocc.2, trivial⟩
  · exact ⟨rfl, hocc.2, by decide⟩
  · cases e with
    | none => exact hh
    | some e => exact ⟨rfl, hocc.2, hh⟩

theorem frame_assembly_two_frames :
    ∃ s, Reach (step twoEngines) (FrameAct plainEnv fun d => d.isFrame = true) (construct 0 8) s ∧
      s.sent.length = 2 ∧ Assembled twoEngines plainEnv s := by
  obtain ⟨s, hs, hp⟩ := Reach.exists_of_runFrom_all (step twoEngines) Occurs (construct 0 8) _
    (twoFrames [none, none, some 1, some 0, none, none]) (twoFrames_frameAct _)
    (fun s => s.sent.length = 2) (by decide +kernel)
  exact ⟨s, hs, hp, (frame_assembly twoEngines plainEnv 0 8).1 s hs⟩

/-- The two parts of one frame, with the bytes 1 and 2, are sent as two packets. -/
theorem frame_sent_in_parts :
    ∃ s, Reach (step twoEngines) Occurs (construct 0 8) s ∧
      s.hist.fetched.map (fun x => x.2.body) = [partDesc 1, frameDesc 2] ∧
      s.sent.map (fun p => (p.origins, p.contents)) = [([0], [1]), ([1], [2])] :=
  Reach.exists_of_run
    [.event (.setTail 2), .event .fetchDescriptors,
      .event (.fetchComplete 0 [partDesc 1, frameDesc 2]), .tick plainEnv turn,
      .tick plainEnv turn, .event (.pktComplete plainEnv 0), .event (.pktComplete plainEnv 1),
      .tick plainEnv turn, .tick plainEnv turn] (by decide +kernel)

end Gem5.IGbE.TxDescCacheGlobal
