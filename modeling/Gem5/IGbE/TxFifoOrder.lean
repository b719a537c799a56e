import Gem5.IGbE.TxAssembly

/-!
# The order of the packets in the transmit fifo

With one packet engine, packets leave the queue in the order of their descriptors, and
so they do if the descriptor cache has room for a single descriptor. In every other
queue a DMA read that ends late lets a later frame pass.
-/

namespace Gem5.IGbE.TxDescCacheGlobal

open Function

open List

open DescCacheGlobal (Steady Quiet Supplied Within)

variable {cfg : Config} {env : TxEnv} {s t : TxDescCacheGlobal} {d : Desc TxDesc}
  {p : EthPacketData} {e i : Nat} {o : TxOp} {order : List Nat}

def inFifo (s : TxDescCacheGlobal) : List Nat := s.sent.flatMap EthPacketData.origins

structure Orderly (cfg : Config) (s : TxDescCacheGlobal) : Prop where
  sorted : ∀ e < cfg.numDMAEngines, (s.inFifo ++ s.held e).Pairwise (· < ·)
  bound : ∀ e < cfg.numDMAEngines, ∀ k ∈ s.inFifo ++ s.held e, k < s.taken
  single : ∀ i < cfg.numDMAEngines, ∀ j < cfg.numDMAEngines, i ≠ j → s.held i ≠ [] → s.held j = []

namespace Orderly

theorem construct (cfg : Config) (base len : Nat) : Orderly cfg (construct base len) where
  sorted := by simp [inFifo, held, TxDescCacheGlobal.construct, DescCacheGlobal.construct]
  bound := by simp [inFifo, held, TxDescCacheGlobal.construct, DescCacheGlobal.construct]
  single := by simp [held, TxDescCacheGlobal.construct, DescCacheGlobal.construct]

theorem step {P : Nat → TxDesc → Prop} (h : Orderly cfg s)
    (hk : Kept cfg (fun _ b => Supplied P b) s) (ha : Possible s o)
    (hstart : ∀ env, o = .getPacketData env → ∀ i < cfg.numDMAEngines,
      ∀ j < cfg.numDMAEngines, i ≠ j → s.held i = []) (hs : op cfg s o = .ok t) :
    Orderly cfg t := by
  rcases op_packets hk ha hs with ⟨hheld, hsent, htaken, _⟩ |
    ⟨e, he, ⟨env, henv⟩, hheld, hsent, htaken⟩ | ⟨e, he, p, hp, hheld, hsent, htaken⟩
  · have hfifo : t.inFifo = s.inFifo := by rw [inFifo, hsent, inFifo]
    refine ⟨?_, ?_, ?_⟩
    · rw [hheld, hfifo]
      exact h.sorted
    · rw [hheld, hfifo]
      exact fun e he k hk => lt_of_lt_of_le (h.bound e he k hk) htaken
    · rw [hheld]
      exact h.single
  · have hfifo : t.inFifo = s.inFifo := by rw [inFifo, hsent, inFifo]
    have hothers : ∀ i < cfg.numDMAEngines, i ≠ e → s.held i = [] :=
      fun i hi hie => hstart env henv i hi e he hie
    refine ⟨?_, ?_, ?_⟩
    · intro i hi
      rw [hfifo, hheld]
      by_cases hie : i = e
      · subst hie
        rw [update_self, ← append_assoc, pairwise_append]
        refine ⟨h.sorted i hi, pairwise_singleton _ _, ?_⟩
        intro k hk x hx
        rw [mem_singleton.mp hx]
        exact h.bound i hi k hk
      · rw [update_of_ne hie]
        exact h.sorted i hi
    · intro i hi k hk
      rw [htaken]
      rw [hfifo, hheld] at hk
      by_cases hie : i = e
      · subst hie
        rw [update_self, ← append_assoc, mem_append, mem_singleton] at hk
        rcases hk with hk | rfl
        · exact Nat.lt_succ_of_lt (h.bound i hi k hk)
        · exact Nat.lt_succ_self _
      · rw [update_of_ne hie] at hk
        exact Nat.lt_succ_of_lt (h.bound i hi k hk)
    · intro i hi j hj hij hne
      rw [hheld] at hne ⊢
      by_cases hje : j = e
      · rw [update_of_ne (fun hie => hij (hie.trans hje.symm))] at hne
        exact absurd (hothers i hi (fun hie => hij (hie.trans hje.symm))) hne
      · rw [update_of_ne hje]
        exact hothers j hj hje
  · have hfifo : t.inFifo = s.inFifo ++ s.held e := by
      rw [inFifo, hsent, hp]
      simp [inFifo]
    -- the packet that leaves was the only one
    have hlist : ∀ i < cfg.numDMAEngines, t.inFifo ++ t.held i = s.inFifo ++ s.held e ∨
        t.inFifo ++ t.held i = s.inFifo ++ s.held i := by
      intro i hi
      rw [hfifo, hheld]
      by_cases hie : i = e
      · left
        rw [hie, update_self, append_nil]
      · rw [update_of_ne hie]
        by_cases hempty : s.held e = []
        · right
          rw [hempty, append_nil]
        · left
          rw [h.single e he i hi (fun hei => hie hei.symm) hempty, append_nil]
    refine ⟨?_, ?_, ?_⟩
    · intro i hi
      rcases hlist i hi with heq | heq
      · rw [heq]
        exact h.sorted e he
      · rw [heq]
        exact h.sorted i hi
    · intro i hi k hk
      rw [htaken]
      rcases hlist i hi with heq | heq
      · rw [heq] at hk
        exact h.bound e he k hk
      · rw [heq] at hk
        exact h.bound i hi k hk
    · intro i hi j hj hij hne
      rw [hheld] at hne ⊢
      by_cases hje : j = e
      · rw [hje, update_self]
      · by_cases hie : i = e
        · rw [hie, update_self] at hne
          exact absurd rfl hne
        · rw [update_of_ne hie] at hne
          rw [update_of_ne hje]
          exact h.single i hi j hj hij hne

theorem inFifo_sorted (h : Orderly cfg s) : s.inFifo.Pairwise (· < ·) :=
  (pairwise_append.mp (h.sorted 0 cfg.dma_pos)).1

end Orderly

theorem Ticked.possible {env : TxEnv} (h : Ticked env s o) : Possible s o := by
  cases o with
  | fetchComplete e data | writebackComplete e f | headerComplete env'
  | pktComplete env' e => cases h
  | _ => trivial

theorem orderly_of_one {base len : Nat} (hone : cfg.numDMAEngines = 1)
    (h : Reach (TxDescCacheGlobal.step cfg) Occurs (construct base len) s) : Orderly cfg s := by
  have hops : Reach (op cfg) Possible (construct base len) s :=
    reach_op (fun _ _ ho => ho.2) (fun _ _ _ _ _ _ ho => ho.possible) h
  have hboth : Kept cfg (fun _ b => Supplied (fun _ _ => True) b) s ∧ Orderly cfg s := by
    refine hops.invariant (P := fun u => Kept cfg (fun _ b => Supplied (fun _ _ => True) b) u ∧
      Orderly cfg u)
      ⟨construct_kept (Supplied.construct _ base len), Orderly.construct cfg base len⟩ ?_
    rintro u v o ⟨hk, ho⟩ ha hs
    refine ⟨op_supplied hk ha (fun _ _ _ _ _ => trivial) hs, ho.step hk ha ?_ hs⟩
    intro env _ i hi j hj hij
    omega
  exact hboth.2

structure Alone (cfg : Config) (env : TxEnv) (s : TxDescCacheGlobal) : Prop where
  framing : Framing cfg env (fun d => d.isFrame = true) s
  within : Kept cfg (Within cfg) s
  orderly : Orderly cfg s

namespace Alone

theorem construct (cfg : Config) (env : TxEnv) (base len : Nat) :
    Alone cfg env (construct base len) :=
  ⟨Framing.construct cfg env _ base len, construct_kept (Within.construct cfg base len),
    Orderly.construct cfg base len⟩

theorem held_nil (h : Alone cfg env s) (hsize : cfg.size ≤ 1)
    (hr : s.hasReadyEthPacket cfg = false) {rest : List (Desc TxDesc)}
    (hu : s.unusedCache = d :: rest) (he : e < cfg.numDMAEngines) : s.held e = [] := by
  obtain ⟨order, hs, hw⟩ := h.within.cache
  have hnil : order = [] := by
    unfold Within at hw
    rw [hu, length_cons] at hw
    apply eq_nil_of_length_eq_zero
    omega
  cases h.framing.engines e with
  | vacant _ _ _ hpkt _ => simp [held, hpkt]
  | reading _ d _ _ _ hdesc _ _ _ _ _ =>
    have hlive := (hs.processing.live_iff e).mp (Option.isSome_of_eq_some hdesc)
    rw [hnil] at hlive
    cases hlive
  | ready p _ _ hdone _ _ _ _ =>
    have hready := h.framing.hasReady_of_done he hdone
    rw [hr] at hready
    cases hready

theorem op (h : Alone cfg env s) (ha : FrameOp env (fun d => d.isFrame = true) s o)
    (hstart : ∀ env, o = .getPacketData env → ∀ i < cfg.numDMAEngines,
      ∀ j < cfg.numDMAEngines, i ≠ j → s.held i = [])
    (hs : TxDescCacheGlobal.op cfg s o = .ok t) : Alone cfg env t := by
  have hmoves : DescCacheGlobal.CacheMoves cfg (fun _ => True) (fun _ _ _ => True)
      (Within (α := TxDesc) (π := EthPacketData) cfg) := Within.cacheMoves
  exact ⟨h.framing.step (fun _ hd => hd) ha hs,
    op_keeps hmoves h.within ha.1 (fun _ _ _ => trivial) (fun _ _ _ => trivial)
      (fun _ _ _ hw => hw) hs, h.orderly.step h.framing.kept ha.1 hstart hs⟩

theorem step {a : TxAct} (h : Alone cfg env s) (hsize : cfg.size ≤ 1)
    (ha : FrameAct env (fun d => d.isFrame = true) s a)
    (hs : TxDescCacheGlobal.step cfg s a = .ok t) : Alone cfg env t := by
  cases a with
  | event o =>
    refine h.op ha.2 ?_ hs
    rintro env' rfl
    cases ha.1
  | tick env' k =>
    have hop : ∀ {u v : TxDescCacheGlobal} {o : TxOp}, Alone cfg env u → Ticked env' u o →
        (∀ env, o ≠ .getPacketData env) → TxDescCacheGlobal.op cfg u o = .ok v →
        Alone cfg env v :=
      fun hu ho hne hv => hu.op (FrameAct.ticked ha ho) (fun env heq => absurd heq (hne env)) hv
    obtain ⟨⟨t, _⟩, htick, rfl⟩ := map_eq_ok.mp hs
    rcases txStateMachine_cases htick with ⟨rfl, _⟩ | ⟨_, hp⟩ | ⟨hr, hwait, hcase⟩
    · exact h
    · exact hop (o := .pushReady env' k.pushOk) h rfl (by simp) (map_eq_ok.mpr ⟨_, hp, rfl⟩)
    · rcases hcase with ⟨_, u, hu, hv⟩ | ⟨_, hv⟩ | ⟨u, hu, hv⟩
      · exact hop (o := .fetchDescriptors) (hop (o := .writeback 0) h trivial (by simp) hu) trivial
          (by simp) hv
      · exact hop (o := .fetchDescriptors) h trivial (by simp) hv
      · have hself := h.framing.processContextDesc_eq (fun _ hd => hd) env'
        obtain rfl := Except.ok.inj (hself.symm.trans hu)
        rcases hv with ⟨rfl, _⟩ | ⟨_, hv⟩
        · exact h
        · obtain ⟨n, w, hw, hlast⟩ := nextPacket_cases hv
          obtain rfl := h.framing.getPacketSize_eq hw
          rcases hlast with ⟨_, _, hv⟩ | ⟨_, hv | rfl⟩
          · refine h.op (o := .getPacketData env') ⟨trivial, ha⟩ ?_ hv
            intro _ _ i hi j _ _
            obtain ⟨d, rest, hunused, _⟩ := getPacketDataGlobal_cases hv
            exact h.held_nil hsize hr hunused hi
          · exact hop (o := .writeback 0) h trivial (by simp) hv
          · exact h

end Alone

theorem frameDesc_accepted (env : TxEnv) :
    (frameDesc 0).isFrame = true ∧ env.Accepts (frameDesc 0) :=
  ⟨by decide, by decide, by decide, by decide, env.buffer (frameDesc 0),
    Headers.checksum_verbatim _ (by decide) (by decide) _⟩

/-- A new queue that has fetched `data`. -/
def filledWith (len : Nat) (data : List TxDesc) : TxDescCacheGlobal :=
  { construct 0 len with toDescCacheGlobal := DescCacheGlobal.filled EthPacketData 0 len data }

theorem filled_reach {good : TxDesc → Prop} {data : List TxDesc} {len : Nat} (hne : data ≠ [])
    (hlen : data.length < len) (hsize : data.length ≤ cfg.size) (hgood : ∀ d ∈ data, good d)
    (hdata : ∀ d ∈ data, d.carriesData = true) :
    Reach (step cfg) (FrameAct env good) (construct 0 len) (filledWith len data) := by
  have hposted : Reach (step cfg) (FrameAct env good) (construct 0 len) { construct 0 len with
      toDescCacheGlobal := DescCacheGlobal.posted EthPacketData 0 len data } :=
    Reach.single (a := .event (.setTail data.length)) ⟨rfl, trivial, trivial⟩ rfl
  have hstarted := hposted.snoc (a := TxAct.event .fetchDescriptors) ⟨rfl, trivial, trivial⟩
    (onBase_eq_ok.mpr ⟨_, DescCacheGlobal.posted_fetch hne hsize, rfl⟩)
  refine hstarted.snoc (a := TxAct.event (.fetchComplete 0 data)) ⟨rfl, ⟨?_, ?_⟩, hgood⟩
    (fetchComplete_eq_ok.mpr ⟨_, DescCacheGlobal.filled_eq hlen, rfl, fun d hd => ?_⟩)
  · exact fun h => hne (eq_nil_of_length_eq_zero h)
  · exact DescCacheGlobal.posted_inFlight.symm
  · have hin := mem_of_mem_drop hd
    rw [DescCacheGlobal.filled_unused] at hin
    obtain ⟨i, hi, rfl⟩ := mem_mapIdx.mp hin
    exact hdata _ (getElem_mem hi)

/-- The engines before `n` read, the others are free, and nothing has ended. -/
structure BusyBelow (n : Nat) (s : TxDescCacheGlobal) : Prop where
  undone : ∀ i, (s.dmaEngineArray i).pktDone = false
  busy : ∀ i < n, (s.dmaEngineArray i).pktWaiting = true
  free : ∀ i, n ≤ i → s.isFree i = true

theorem BusyBelow.getFree {n : Nat} (h : BusyBelow n s) (hn : n < cfg.numDMAEngines) :
    s.getFreeDMAEngine cfg = some n := by
  unfold getFreeDMAEngine
  rw [List.find?_range_eq_some]
  refine ⟨h.free n le_rfl, mem_range.mpr hn, ?_⟩
  intro j hj
  simp [isFree, h.busy j hj]

theorem BusyBelow.notReady {n : Nat} (h : BusyBelow n s) : s.hasReadyEthPacket cfg = false := by
  apply Bool.eq_false_iff.mpr
  intro hready
  obtain ⟨i, _, hi⟩ := hasReadyEthPacket_iff.mp hready
  simp [isReady, h.undone i] at hi

section Overtaking
variable {good : TxDesc → Prop} (hgood : ∀ d, good d → d.isFrame = true ∧ env.Accepts d)
include hgood

attribute [local simp] DescCacheGlobal.setPkt assign

theorem starts_next {n : Nat} {rest : List (Desc TxDesc)} (h : Framing cfg env good s)
    (hb : BusyBelow n s) (hn : n < cfg.numDMAEngines) (hu : s.unusedCache = d :: rest) :
    ∃ t, Reach (step cfg) (FrameAct env good) s t ∧ Framing cfg env good t ∧
      BusyBelow (n + 1) t ∧ t.unusedCache = rest ∧ t.inFifo = s.inFifo ∧
      (t.dmaEngineArray n).pktPtr = true ∧ t.held n = [d.origin] ∧
      ∀ i, i ≠ n → t.dmaEngineArray i = s.dmaEngineArray i ∧ t.held i = s.held i := by
  have hh : env.SameHost env := TxEnv.SameHost.refl env
  have hstart := h.start hgood hb.notReady (hb.getFree hn) hu
  have hdone := (getFreeDMAEngine_some (hb.getFree hn)).2.2.1
  refine ⟨_, Reach.single (a := .tick env turn) hh hstart,
    h.act (fun d hd => (hgood d hd).1) (a := .tick env turn) hh hstart, ⟨?_, ?_, ?_⟩, ?_, rfl,
    ?_, ?_, ?_⟩
  · intro i
    by_cases hi : i = n
    · simp [hi, TxDescCache.reading, hdone]
    · simp [hi, hb.undone i]
  · intro i hi
    by_cases hin : i = n
    · simp [hin, TxDescCache.reading]
    · simp [hin, hb.busy i (by omega)]
  · intro i hi
    have hin : i ≠ n := by omega
    have hfree := hb.free i (by omega)
    simpa [isFree, hin, DescCacheGlobal.beginProcessing] using hfree
  · simp [DescCacheGlobal.beginProcessing, hu]
  · simp [TxDescCache.reading]
  · simp [held, EthPacketData.extend, EthPacketData.fresh]
  · intro i hi
    simp [held, DescCacheGlobal.beginProcessing, hi]

theorem sends_only (h : Framing cfg env good s) (hptr : (s.dmaEngineArray e).pktPtr = true)
    (hothers : ∀ i, (s.dmaEngineArray i).pktDone = false) :
    ∃ t, Reach (step cfg) (FrameAct env good) s t ∧ t.inFifo = s.inFifo ++ s.held e ∧
      (∀ i, i ≠ e → t.dmaEngineArray i = s.dmaEngineArray i ∧ t.held i = s.held i) ∧
      ∀ i, (t.dmaEngineArray i).pktDone = false := by
  have hframes : ∀ d, good d → d.isFrame = true := fun d hd => (hgood d hd).1
  have hh : env.SameHost env := TxEnv.SameHost.refl env
  obtain ⟨u, hu⟩ := h.complete hgood hptr
  have hact : FrameAct env good s (.event (.pktComplete env e)) := ⟨rfl, hptr, hh⟩
  have hfu := h.act hframes hact hu
  obtain ⟨p, q, hp, hq, hside⟩ := pktComplete_packetSide hu
  simp only [packetSide, PacketSide.mk.injEq] at hside
  have hready : u.hasReadyEthPacket cfg = true := by
    obtain ⟨_, _, _, _, _, _, hlt, _⟩ := pktComplete_cases hu
    exact hfu.hasReady_of_done hlt (by simp [hside.1])
  obtain ⟨order, hs, _⟩ := hfu.kept.cache
  obtain ⟨t, ht⟩ := pushReady_returns hs env (fun i => hfu.waiting_of_ready) hready
  refine ⟨t, (Reach.single hact hu).snoc (a := .tick env turn) hh ((tick_push hready).trans ht), ?_⟩
  obtain ⟨i, p', b, hi, hp', _, hb, rfl⟩ := pushReady_cases ht
  have hq' := Quiet.writebackGlobal hb
  obtain rfl : i = e := by
    by_contra hie
    have hr := (readyEngine_some hi).2
    simp [isReady, hside.1, hie, hothers i] at hr
  obtain rfl : q = p' := by simpa [hside.2.1] using hp'
  refine ⟨?_, ?_, ?_⟩
  · simp [inFifo, hside.2.2.1, held, hp, hq]
  · intro j hj
    refine ⟨by simp [hside.1, hj], ?_⟩
    have hpkts := (congrFun hq'.packets j).trans (update_of_ne hj _ _)
    unfold held
    rw [show b.processingPktArray j = s.processingPktArray j by
      rw [hpkts, hside.2.1, update_of_ne hj]]
  · intro j
    by_cases hj : j = i
    · simp [hj]
    · simp [hside.1, hj, hothers j]

end Overtaking

theorem overtaken (env : TxEnv) (hn : 2 ≤ cfg.numDMAEngines) (hsize : 2 ≤ cfg.size) :
    ∃ s, Reach (step cfg) (FrameAct env fun d => d.isFrame = true ∧ env.Accepts d)
      (construct 0 8) s ∧ s.inFifo = [1, 0] := by
  have hframes : ∀ d : TxDesc, d.isFrame = true ∧ env.Accepts d → d.isFrame = true :=
    fun _ hd => hd.1
  have hfill : Reach (step cfg) (FrameAct env fun d => d.isFrame = true ∧ env.Accepts d)
      (construct 0 8) (filledWith 8 [frameDesc 0, frameDesc 0]) :=
    filled_reach (by simp) (by simp) (by simpa using hsize) (by simpa using frameDesc_accepted env)
      (by decide)
  have hidle : BusyBelow 0 (filledWith 8 [frameDesc 0, frameDesc 0]) :=
    ⟨fun _ => rfl, fun i hi => absurd hi (Nat.not_lt_zero i), fun _ _ => rfl⟩
  obtain ⟨s₁, hr₁, hf₁, hb₁, hu₁, hfifo₁, hptr₁, hheld₁, _⟩ := starts_next (fun _ hd => hd)
    (framing_reach hframes hfill) hidle (by omega) DescCacheGlobal.filled_unused
  obtain ⟨s₂, hr₂, hf₂, hb₂, _, hfifo₂, hptr₂, hheld₂, hsame₂⟩ := starts_next (fun _ hd => hd) hf₁
    hb₁ (by omega) hu₁
  obtain ⟨s₃, hr₃, hfifo₃, hsame₃, hdone₃⟩ := sends_only (fun _ hd => hd) hf₂ hptr₂ hb₂.undone
  have hreach := ((hfill.trans hr₁).trans hr₂).trans hr₃
  obtain ⟨heng₂, hpkt₂⟩ := hsame₂ 0 (by omega)
  obtain ⟨heng₃, hpkt₃⟩ := hsame₃ 0 (by omega)
  obtain ⟨s₄, hr₄, hfifo₄, _⟩ := sends_only (e := 0) (fun _ hd => hd) (framing_reach hframes hreach)
    (by rw [heng₃, heng₂, hptr₁]) hdone₃
  refine ⟨s₄, hreach.trans hr₄, ?_⟩
  rw [hfifo₄, hfifo₃, hfifo₂, hfifo₁, hpkt₃, hpkt₂, hheld₁, hheld₂]
  rfl

/-- Frames of one descriptor each enter the fifo in the order of their descriptors if and
only if the queue has one engine or its cache has room for one descriptor. With one engine
the order is kept whatever the descriptors are. -/
theorem frames_in_ring_order (cfg : Config) (env : TxEnv) :
    ((∀ base len s, Reach (step cfg) (FrameAct env fun d => d.isFrame = true)
        (construct base len) s → s.inFifo.Pairwise (· < ·)) ↔
      cfg.numDMAEngines = 1 ∨ cfg.size ≤ 1) ∧
    (cfg.numDMAEngines = 1 → ∀ base len s, Reach (step cfg) Occurs (construct base len) s →
      s.inFifo.Pairwise (· < ·)) := by
  have hone : cfg.numDMAEngines = 1 → ∀ base len s,
      Reach (step cfg) Occurs (construct base len) s → s.inFifo.Pairwise (· < ·) :=
    fun hone base len s hs => (orderly_of_one hone hs).inFifo_sorted
  refine ⟨⟨?_, ?_⟩, hone⟩
  · intro hall
    by_contra hnot
    have hpos := cfg.dma_pos
    obtain ⟨s, hs, hfifo⟩ := overtaken env (show 2 ≤ cfg.numDMAEngines by omega) (by omega)
    have hsorted := hall 0 8 s (hs.mono (FrameAct.imp fun _ hd => hd.1))
    rw [hfifo] at hsorted
    simp at hsorted
  · rintro (hn | hsize) base len s hs
    · exact hone hn base len s (hs.mono FrameAct.occurs)
    · have halone : Alone cfg env s :=
        hs.invariant (Alone.construct cfg env base len) fun hu ha hst => hu.step hsize ha hst
      exact halone.orderly.inFifo_sorted

def oneEngine : Config :=
  ⟨8, 1, 1, Nat.one_pos, one_le_maxDMAEngineSize, Nat.one_pos, one_le_maxDMAEngineSize⟩

theorem frames_in_ring_order_one_engine :
    ∃ s, Reach (step oneEngine) Occurs (construct 0 8) s ∧ s.sent.length = 2 ∧
      s.inFifo.Pairwise (· < ·) := by
  obtain ⟨s, hs, hp⟩ := Reach.exists_of_runFrom (step oneEngine) Occurs (construct 0 8)
    (twoFrames [none, some 0, none, none, some 0, none])
    (fun s => s.sent.length = 2) (by decide +kernel)
  exact ⟨s, hs, hp, (frames_in_ring_order oneEngine plainEnv).2 rfl 0 8 s hs⟩

/-- In a queue with two engines the second of two frames, with the byte 2, is sent first. -/
theorem second_frame_first :
    ∃ s, Reach (step twoEngines) (FrameAct plainEnv fun d => d.isFrame = true) (construct 0 8) s ∧
      s.sent.map (fun p => (p.origins, p.contents)) = [([1], [2]), ([0], [1])] := by
  obtain ⟨s, hs, hp⟩ := Reach.exists_of_runFrom_all (step twoEngines) Occurs (construct 0 8) _
    (twoFrames [none, none, some 1, none, some 0, none]) (twoFrames_frameAct _)
    (fun s => s.sent.map (fun p => (p.origins, p.contents)) = [([1], [2]), ([0], [1])])
    (by decide +kernel)
  exact ⟨s, hs, hp⟩

end Gem5.IGbE.TxDescCacheGlobal
