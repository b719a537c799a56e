import Gem5.IGbE.RxReset

/-!
# The receive queue after a reset

The guest may reset the receiver or rewrite the ring registers at any time. A reset
with a packet DMA in flight orphans its engine; a reset of a quiet queue leaves an
empty line of engines, from which every packet handed over later is retired in turn.
-/

open List

namespace Gem5.IGbE.RxDescCacheGlobal

open DescCacheGlobal (fetchDescriptorsGlobal_frame fetchComplete_frame setBody setPkt
  beginProcessing markProcessed writebackGlobal_frame writebackComplete_frame)

open DescCacheGlobal (Frame Processing Retired AreaRegister)

variable {cfg : Config} {s t : RxDescCacheGlobal} {order : List Nat} {a : RxAct} {i o : Nat}

def Orphaned (cfg : Config) (s : RxDescCacheGlobal) : Prop :=
  ∃ i < cfg.numDMAEngines, s.processingPktArray i = none ∧
    ∃ p, (s.dmaEngineArray i).Carrying p

variable {b : DescCacheGlobal RxDesc EthPacket}

theorem Orphaned.of_base (h : Orphaned cfg s)
    (hb : ∀ i, s.processingPktArray i = none → b.processingPktArray i = none) :
    Orphaned cfg { s with toDescCacheGlobal := b } := by
  obtain ⟨i, hi, hnone, hcarry⟩ := h
  exact ⟨i, hi, hb i hnone, hcarry⟩

theorem Orphaned.of_frame (h : Orphaned cfg s)
    (hf : Frame s.toDescCacheGlobal b) : Orphaned cfg { s with toDescCacheGlobal := b } :=
  h.of_base fun i hi => by rw [hf.processingPktArray, hi]

attribute [local simp] setBody setPkt setEngine

theorem Orphaned.step (h : Orphaned cfg s) (ha : Possible cfg s a) (hs : step cfg s a = .ok t) :
    Orphaned cfg t := by
  rcases step_cases hs with ⟨b, hf, rfl⟩ | ⟨-, done, rfl⟩ | ⟨tail, rfl⟩ | ⟨env, packet, rfl⟩ |
    ⟨env, j, rfl⟩ | ⟨r, val, rfl⟩ | rfl
  · exact h.of_frame hf
  · exact h
  · cases hs
    exact h
  · obtain ⟨⟨accepted, u⟩, hu, hs⟩ := bind_eq_ok.mp hs
    cases hs
    rcases writePacketGlobal_cases hu with rfl | ⟨j, d, eng, body, hj, _, rfl⟩
    · exact h
    · obtain ⟨i, hi, hnone, p, hcarry⟩ := h
      have hij : i ≠ j := by
        rintro rfl
        have hwait := (getFreeDMAEngine_some hj).2.1
        rw [hcarry.pktWaiting] at hwait
        cases hwait
      refine ⟨i, hi, ?_, p, by simpa [assign, hij] using hcarry⟩
      simpa [assign, beginProcessing, hij] using hnone
  · obtain ⟨i, hi, hnone, p, hcarry⟩ := h
    obtain ⟨eng, body, c, hev, hcase⟩ := dmaEvent_cases hs
    by_cases hij : i = j
    · subst hij
      rcases hcase with ⟨rfl, rfl⟩ | ⟨_, hsome, _⟩
      · obtain ⟨eng', body', c', hev', hcarry'⟩ :=
          RxDescCache.dmaEvent_carrying _ hcarry ha.2.1 ha.2.2
        rw [hev] at hev'
        obtain ⟨rfl, rfl, rfl⟩ : eng = eng' ∧ body = body' ∧ false = c' := by
          simpa using Except.ok.inj hev'
        rcases hcarry' with ⟨_, hcarry'⟩ | ⟨hc, _⟩
        · exact ⟨i, hi, hnone, p, by simpa using hcarry'⟩
        · cases hc
      · simp [hnone] at hsome
    · rcases hcase with ⟨_, rfl⟩ | ⟨_, _, _, b, hb, rfl⟩
      · exact ⟨i, hi, hnone, p, by simpa [hij] using hcarry⟩
      · have hframe := (DescCacheGlobal.manageUsedCache_frame hb).1
        simp only [Prod.mk.injEq] at hframe
        refine ⟨i, hi, ?_, p, by simpa [packetDone, hij] using hcarry⟩
        simp only [hframe.2.2.1]
        simpa [packetDone, markProcessed, hij] using hnone
  · obtain ⟨b, hb, rfl⟩ := onBase_eq_ok.mp hs
    obtain ⟨_, rfl⟩ := areaWrite_ok hb
    exact h.of_base fun _ _ => rfl
  · cases hs
    exact h.of_base fun _ _ => rfl

theorem Line.reset_or_orphaned (h : Line cfg order s) :
    (∃ order', Line cfg order' { s with toDescCacheGlobal := s.reset }) ∨
      Orphaned cfg { s with toDescCacheGlobal := s.reset } := by
  by_cases hq : ∀ i < cfg.numDMAEngines, (s.dmaEngineArray i).pending = 0
  · exact .inl ⟨[], h.reset hq⟩
  · right
    push Not at hq
    obtain ⟨i, hi, hpi⟩ := hq
    obtain ⟨p, hip⟩ := h.engines.pkt_of_pending (Nat.pos_of_ne_zero hpi)
    exact ⟨i, hi, rfl, p, (h.engines.busy i p hip).2.2.2⟩

theorem line_or_orphaned_step (h : (∃ order, Line cfg order s) ∨ Orphaned cfg s)
    (ha : Possible cfg s a) (hs : step cfg s a = .ok t) :
    (∃ order, Line cfg order t) ∨ Orphaned cfg t := by
  rcases h with h | h
  · cases a with
    | areaWrite r val =>
      obtain ⟨order, h⟩ := h
      obtain ⟨b, hb, rfl⟩ := onBase_eq_ok.mp hs
      obtain ⟨_, rfl⟩ := areaWrite_ok hb
      have hw : Line cfg order { s with toDescCacheGlobal := s.writeRegister r val } :=
        h.of_same (by cases r <;> rfl)
      exact hw.reset_or_orphaned
    | reset =>
      obtain ⟨order, h⟩ := h
      cases hs
      exact h.reset_or_orphaned
    | _ =>
      refine .inl (Line.step h ?_ hs)
      exact ha
  · exact .inr (h.step ha hs)

theorem counters_step (ha : Possible cfg s a) (hs : step cfg s a = .ok t) :
    (t.curFetching, t.wbOut) = (s.curFetching, s.wbOut) := by
  have hpacket : ∀ {u : RxDescCacheGlobal}, (u.fetch, u.wb, u.curFetching, u.wbOut) =
      (s.fetch, s.wb, s.curFetching, s.wbOut) →
      (u.curFetching, u.wbOut) = (s.curFetching, s.wbOut) := fun hu => by
    simp only [Prod.mk.injEq] at hu ⊢
    exact hu.2.2
  rcases step_cases hs with ⟨b, hf, rfl⟩ | ⟨-, done, rfl⟩ | ⟨tail, rfl⟩ | ⟨env, packet, rfl⟩ |
    ⟨env, j, rfl⟩ | ⟨r, val, rfl⟩ | rfl
  · rw [Prod.mk.injEq]
    exact ⟨congrArg DescCacheGlobal.Untouched.curFetching hf,
      congrArg DescCacheGlobal.Untouched.wbOut hf⟩
  · rfl
  · cases hs
    rfl
  · exact hpacket (packet_step_frame (Or.inl ⟨env, packet, rfl⟩) hs).1
  · exact hpacket (packet_step_frame (Or.inr ⟨env, j, rfl⟩) hs).1
  · obtain ⟨b, hb, rfl⟩ := onBase_eq_ok.mp hs
    obtain ⟨_, rfl⟩ := areaWrite_ok hb
    cases r <;> rfl
  · cases hs
    rfl

/-- Fetched descriptor `o` is with a packet engine or has become used. -/
def Tracked (o : Nat) (s : RxDescCacheGlobal) : Prop :=
  (∃ i d, (s.processingCache i).desc = some d ∧ d.origin = o) ∨ ∃ d ∈ s.hist.used, d.origin = o

namespace Tracked

theorem of_frame (h : Tracked o s)
    (hf : Frame s.toDescCacheGlobal b) : Tracked o { s with toDescCacheGlobal := b } := by
  have hused : b.hist.used = s.hist.used := congrArg DescCacheGlobal.Untouched.used hf
  unfold Tracked
  simp only [hf.processingCache, hused]
  exact h

theorem assign {packet : EthPacket} {d : Desc RxDesc} {eng : RxDescCache} {body : RxDesc}
    (h : Tracked o s) (hfree : (s.processingCache i).desc = none) :
    Tracked o (s.assign i packet d eng body) := by
  rcases h with ⟨j, x, hx, ho⟩ | hused
  · left
    have hji : j ≠ i := by
      rintro rfl
      rw [hfree] at hx
      cases hx
    refine ⟨j, x, ?_, ho⟩
    simpa [RxDescCacheGlobal.assign, beginProcessing, hji] using hx
  · exact .inr hused

theorem setEngine {eng : RxDescCache} {body : RxDesc} (h : Tracked o s) :
    Tracked o (s.setEngine i eng body) := by
  rcases h with ⟨j, x, hx, ho⟩ | hused
  · left
    by_cases hji : j = i
    · refine ⟨j, { x with body := body }, ?_, ho⟩
      simp [RxDescCacheGlobal.setEngine, ← hji, hx]
    · refine ⟨j, x, ?_, ho⟩
      simpa [RxDescCacheGlobal.setEngine, hji] using hx
  · exact .inr hused

theorem packetDone (h : Tracked o s) : Tracked o (s.packetDone i) := by
  rcases h with ⟨j, x, hx, ho⟩ | hused
  · left
    refine ⟨j, x, ?_, ho⟩
    by_cases hji : j = i
    · simpa [RxDescCacheGlobal.packetDone, markProcessed, hji] using hji ▸ hx
    · simpa [RxDescCacheGlobal.packetDone, markProcessed, hji] using hx
  · exact .inr hused

theorem retired {front rest : List Nat}
    (h : Tracked o s) (hp : Processing cfg order s.toDescCacheGlobal)
    (hr : Retired cfg order s.toDescCacheGlobal front rest b) :
    Tracked o { s with toDescCacheGlobal := b } := by
  have hused : b.hist.used = s.hist.used ++ s.processed front := by rw [hr.eq]
  rcases h with ⟨j, x, hx, ho⟩ | ⟨x, hx, ho⟩
  · have hm : j ∈ order := (hp.live_iff j).mp (by simp [hx])
    rw [hr.split] at hm
    rcases mem_append.mp hm with hj | hj
    · right
      refine ⟨x, ?_, ho⟩
      simp only [hused]
      exact mem_append_right _ (mem_filterMap.mpr ⟨j, hj, hx⟩)
    · left
      exact ⟨j, x, by rw [hr.same j hj]; exact hx, ho⟩
  · right
    refine ⟨x, ?_, ho⟩
    simp only [hused]
    exact mem_append_left _ hx

theorem step (hl : ∃ order, Line cfg order s) (h : Tracked o s) (ha : Undisturbed cfg s a)
    (hs : step cfg s a = .ok t) : Tracked o t := by
  obtain ⟨order, hl⟩ := hl
  rcases step_cases hs with ⟨b, hf, rfl⟩ | ⟨-, done, rfl⟩ | ⟨tail, rfl⟩ | ⟨env, packet, rfl⟩ |
    ⟨env, j, rfl⟩ | ⟨r, val, rfl⟩ | rfl
  · exact h.of_frame hf
  · exact h
  · cases hs
    exact h
  · obtain ⟨⟨accepted, u⟩, hu, hs⟩ := bind_eq_ok.mp hs
    cases hs
    rcases writePacketGlobal_cases hu with rfl | ⟨j, d, eng, body, hj, _, rfl⟩
    · exact h
    · exact h.assign (getFreeDMAEngine_some hj).2.2.2.1
  · obtain ⟨hpend, hpcss, hdt⟩ := ha
    rcases dmaEvent_spec hl.engines hl.processing hpend hpcss hdt with
      ⟨eng, body, hok, _⟩ | ⟨eng, body, front, rest, b, hok, hm, hr, _, _⟩
    · obtain rfl := eq_of_ok hok hs
      exact h.setEngine
    · obtain rfl := eq_of_ok hok hs
      exact h.setEngine.packetDone.retired
        (((hl.processing.setBody body).markProcessed hm).setPkt none) hr
  · exact ha.elim
  · exact ha.elim

theorem used_or_waiting (h : Tracked o s) (hl : Line cfg order s) :
    (∃ d ∈ s.hist.used, d.origin = o) ∨ ∃ j < cfg.numDMAEngines,
      (s.processingCache j).seqIdx = s.nextSeqToWriteback ∧ 0 < (s.dmaEngineArray j).pending := by
  rcases h with ⟨i, d, hd, ho⟩ | hused
  · right
    have hm : i ∈ order := (hl.processing.live_iff i).mp (by simp [hd])
    cases order with
    | nil => cases hm
    | cons j rest =>
      have hj : j ∈ j :: rest := mem_cons_self
      have hdone := hl.oldest j rfl
      obtain ⟨p, hp⟩ := Option.isSome_iff_exists.mp (hl.engines.waiting j hj hdone)
      exact ⟨j, hl.processing.lt j hj, hl.processing.seq_head,
        (hl.engines.busy j p hp).2.2.2.pending_pos⟩
  · exact .inl hused

end Tracked

/-- `RCTL.RST`, then the guest programs the head and the tail again. -/
def restart (cfg : Config) (head : BitVec 32) (tail : Nat) (s : RxDescCacheGlobal) :
    Sim RxDescCacheGlobal := do
  let s ← step cfg s .reset
  let s ← step cfg s (.areaWrite .head head)
  step cfg s (.setTail tail)

/-- The queue takes up its work: no sequence number is live, every engine without a
packet is free, no done flag is set, and from here on, as long as the guest leaves
the queue alone, no packet DMA ends in an assert, and the descriptor of a packet
becomes used as soon as the DMAs of the packets up to it have ended. -/
structure Ready (cfg : Config) (s : RxDescCacheGlobal) : Prop where
  idle : s.nextSeqToProcess = s.nextSeqToWriteback ∧ ∀ i, (s.processingCache i).desc = none
  free : ∀ i < cfg.numDMAEngines, s.processingPktArray i = none → s.isFree i = true
  done : ∀ i < cfg.numDMAEngines,
    (s.processingCache i).done = false ∧ s.processingPktDoneArray i = false
  completes : ∀ u, Reach (step cfg) (Undisturbed cfg) s u → ∀ env i,
    Possible cfg u (.dmaEvent env i) → ∃ v, step cfg u (.dmaEvent env i) = .ok v
  retires : ∀ u, Reach (step cfg) (Undisturbed cfg) s u → ∀ env packet d later v w,
    u.unusedCache = d :: later → Undisturbed cfg u (.writePacket env packet) →
    step cfg u (.writePacket env packet) = .ok v → Reach (step cfg) (Undisturbed cfg) v w →
    (∃ x ∈ w.hist.used, x.origin = d.origin) ∨ ∃ j < cfg.numDMAEngines,
      (w.processingCache j).seqIdx = w.nextSeqToWriteback ∧ 0 < (w.dmaEngineArray j).pending

theorem restart_eq (cfg : Config) (head : BitVec 32) (tail : Nat)
    (hc : (s.curFetching, s.wbOut) = (0, 0)) : restart cfg head tail s = .ok { s with
      toDescCacheGlobal := ((s.reset.writeRegister .head head).reset).setTail tail } := by
  simp only [Prod.mk.injEq] at hc
  simp [restart, step, onBase, DescCacheGlobal.areaWrite, DescCacheGlobal.areaChanged,
    DescCacheGlobal.writeRegister, DescCacheGlobal.reset, hc]

theorem Line.of_restart (h : Line cfg order s) (head : BitVec 32) (tail : Nat)
    (hq : ∀ i < cfg.numDMAEngines, (s.dmaEngineArray i).pending = 0) : Line cfg [] { s with
      toDescCacheGlobal := ((s.reset.writeRegister .head head).reset).setTail tail } := by
  have hwrite : Line cfg [] { s with toDescCacheGlobal := s.reset.writeRegister .head head } :=
    (h.reset hq).of_same rfl
  exact (hwrite.reset hq).of_same rfl

theorem Line.tracked_of_writePacket {env : RxEnv} {packet : EthPacket} {d : Desc RxDesc}
    {later : List (Desc RxDesc)} (h : Line cfg order s) (hu : s.unusedCache = d :: later)
    (ha : Possible cfg s (.writePacket env packet))
    (hs : RxDescCacheGlobal.step cfg s (.writePacket env packet) = .ok t) : Tracked d.origin t := by
  obtain ⟨hfree, hlen, hacc⟩ := ha (by simp [hu])
  obtain ⟨i, eng, body, hw, _⟩ := writePacketGlobal_spec h.engines hu hfree hlen hacc
  simp only [RxDescCacheGlobal.step, hw] at hs
  cases hs
  left
  refine ⟨i, { d with body := body }, ?_, rfl⟩
  simp [assign, beginProcessing]

theorem Line.ready (h : Line cfg [] s)
    (hdone : ∀ i < cfg.numDMAEngines, s.processingPktDoneArray i = false) : Ready cfg s where
  idle := by
    refine ⟨?_, h.desc_none⟩
    rw [h.processing.next, length_nil, add_zero, Nat.mod_eq_of_lt h.processing.first_lt]
  free := by
    intro i hi hpkt
    obtain ⟨heng, hoff⟩ := h.engines.rest i hpkt
    simp [isFree, heng.pktWaiting, hdone i hi, h.desc_none i, hoff, hpkt]
  done := by
    intro i hi
    refine ⟨?_, hdone i hi⟩
    by_contra hd
    have hm := h.processing.done_mem i (by simpa using hd)
    cases hm
  completes := by
    intro u hu env i hp
    obtain ⟨order, hl⟩ := hu.invariant ⟨[], h⟩ Line.step
    obtain ⟨v, _, hv, _⟩ := hl.dmaEvent hp
    exact ⟨v, hv⟩
  retires := by
    intro u hu env packet d later v w hcache ha hs hw
    have hline : ∀ {x}, Reach (RxDescCacheGlobal.step cfg) (Undisturbed cfg) v x →
        ∃ order, Line cfg order x := fun hx =>
      ((hu.snoc ha hs).trans hx).invariant ⟨[], h⟩ Line.step
    obtain ⟨_, hlu⟩ := hu.invariant ⟨[], h⟩ Line.step
    have htracked := hw.invariant_under hline (hlu.tracked_of_writePacket hcache ha hs) Tracked.step
    obtain ⟨_, hlw⟩ := hline hw
    exact htracked.used_or_waiting hlw

/-- From a quiet state of any run a restart leads to a queue at work exactly if the
state machine has already seen every finished packet: `reset` does not clear the
flags of those it has not. -/
theorem restart_ready_iff (cfg : Config) (base len : Nat) (s : RxDescCacheGlobal)
    (h : Reach (step cfg) (Possible cfg) (construct base len) s) (hq : ¬ InFlight cfg s) :
    (∀ head tail, ∃ r, restart cfg head tail s = .ok r ∧ Ready cfg r) ↔
      ∀ i < cfg.numDMAEngines, s.processingPktDoneArray i = false := by
  have hc : (s.curFetching, s.wbOut) = (0, 0) :=
    h.invariant (P := fun u => (u.curFetching, u.wbOut) = (0, 0)) rfl
      fun hu ha hs => (counters_step ha hs).trans hu
  have hpend : ∀ i < cfg.numDMAEngines, (s.dmaEngineArray i).pending = 0 := by
    intro i hi
    by_contra hpi
    exact hq (Or.inr (Or.inr ⟨i, hi, Nat.pos_of_ne_zero hpi⟩))
  constructor
  · intro hr i hi
    obtain ⟨r, hok, hready⟩ := hr 0 0
    rw [restart_eq cfg 0 0 hc] at hok
    cases hok
    exact (hready.done i hi).2
  · intro hdone head tail
    refine ⟨_, restart_eq cfg head tail hc, ?_⟩
    rcases h.invariant (Or.inl ⟨[], Line.construct cfg base len⟩) line_or_orphaned_step with
      ⟨order, hl⟩ | ⟨i, hi, _, p, hcarry⟩
    · exact (hl.of_restart head tail hpend).ready hdone
    · have hpos := hcarry.pending_pos
      have hzero := hpend i hi
      omega

theorem restart_ready_after_packet :
    ∃ s, Reach (step twoEngines) (Possible twoEngines) (construct 0 8) s ∧
      ¬ InFlight twoEngines s ∧ s.nextSeqToWriteback = 1 ∧
      ∀ head tail, ∃ r, restart twoEngines head tail s = .ok r ∧ Ready twoEngines r := by
  obtain ⟨s, hs, hp⟩ := Reach.exists_of_runFrom (step twoEngines) (Possible twoEngines)
    (construct 0 8)
    (twoFetched ++ [.writePacket plainEnv ⟨[1]⟩, .dmaEvent plainEnv 0, .clearDone])
    (fun s => ¬ InFlight twoEngines s ∧ s.nextSeqToWriteback = 1 ∧
      ∀ i < twoEngines.numDMAEngines, s.processingPktDoneArray i = false) (by decide +kernel)
  obtain ⟨hq, hone, hdone⟩ := hp
  exact ⟨s, hs, hq, hone, (restart_ready_iff twoEngines 0 8 s hs hq).mpr hdone⟩

/-- The packet DMA has ended and the state machine has not looked yet: after the
restart the flag of the old packet is still set and its engine is not free. -/
theorem restart_keeps_done_flag :
    ∃ s r, Reach (step twoEngines) (Possible twoEngines) (construct 0 8) s ∧
      ¬ InFlight twoEngines s ∧ restart twoEngines 0 2 s = .ok r ∧
      r.processingPktArray 0 = none ∧ r.isFree 0 = false ∧ r.processingPktDoneArray 0 = true := by
  obtain ⟨s, hs, hp⟩ := Reach.exists_of_runFrom (step twoEngines) (Possible twoEngines)
    (construct 0 8)
    (twoFetched ++ [.writePacket plainEnv ⟨[1]⟩, .dmaEvent plainEnv 0])
    (fun s => decide (¬ InFlight twoEngines s) && okAnd (restart twoEngines 0 2 s) fun r =>
      decide (r.processingPktArray 0 = none ∧ r.isFree 0 = false ∧
        r.processingPktDoneArray 0 = true))
    (by decide +kernel)
  simp only [Bool.and_eq_true, decide_eq_true_eq, okAnd_iff] at hp
  obtain ⟨hq, r, hr, hflags⟩ := hp
  exact ⟨s, r, hs, hq, hr, hflags⟩

end Gem5.IGbE.RxDescCacheGlobal
