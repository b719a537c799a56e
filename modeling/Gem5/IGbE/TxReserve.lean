import Gem5.IGbE.PacketFifo
import Gem5.IGbE.TxFrames
import Gem5.Shared.Totals

/-!
# The reservations of a transmit queue

`txStateMachine` with the `txFifo` it reserves bytes in and pushes packets to. `Sized`
is what a queue keeps as long as no frame has more than one descriptor: every engine has
reserved as many bytes as its frame has. The host memory may change at any time.
-/

namespace Gem5.IGbE

open Function Bool Option

open List

open DescCacheGlobal (writebackGlobal setPkt beginProcessing)

namespace TxDesc

def isSingle (d : TxDesc) : Bool :=
  d.isFrame || (d.isContext && !(d.isType txdCnxt && d.tse))

theorem eop_of_isSingle {d : TxDesc} (h : d.isSingle = true) (hd : d.carriesData = true) :
    d.eop = true := by
  have hframe : d.isFrame = true := by
    simpa [isSingle, isContext_of_carriesData hd] using h
  simp only [isFrame, and_eq_true] at hframe
  exact hframe.1.2

theorem startsTso_of_isSingle {d : TxDesc} (h : d.isSingle = true) : d.startsTso = false := by
  simp only [isSingle, or_eq_true] at h
  rcases h with hf | hc
  · simp only [isFrame, and_eq_true, not_eq_true'] at hf
    exact hf.2
  · simp only [isContext, isTypes, isType, and_eq_true, or_eq_true, beq_iff_eq] at hc
    rcases hc.1.2 with ht | ht
    · simp [startsTso, isType, ht, txdCnxt, txdAdvData]
    · simp [startsTso, isType, ht, txdAdvCnxt, txdAdvData]

end TxDesc

def TxFifo.packetFifo : TxFifo PacketFifo :=
  ⟨PacketFifo.availUnsigned 32, PacketFifo.reserve, PacketFifo.push⟩

namespace TxDescCacheGlobal

open DescCacheGlobal (Steady Quiet Supplied)

variable {cfg : Config} {env : TxEnv} {s t : TxDescCacheGlobal} {d : Desc TxDesc}
  {p : EthPacketData} {e i : Nat} {o : TxOp} {order : List Nat} {f g : PacketFifo}
  {en candidate : Bool}

def TickedAside (o : TxOp) : Prop :=
  match o with
  | .writeback _ | .fetchDescriptors | .getPacketSize | .processContextDesc _ => True
  | _ => False

abbrev Aside (cfg : Config) (s t : TxDescCacheGlobal) : Prop :=
  Reach (op cfg) (fun _ o => TickedAside o) s t

theorem pushReady_of_pushReadyTo (h : s.pushReadyTo .packetFifo cfg env f = .ok (t, g)) :
    ∃ p u, s.getReadyEthPacket cfg = .ok (p, u) ∧ f.push p = .ok (true, g) ∧
      s.pushReady cfg env true = .ok t := by
  obtain ⟨p, u, hu, hpush, ht⟩ := pushReadyTo_eq_ok.mp h
  exact ⟨p, u, hu, hpush, map_eq_ok.mpr ⟨(t, ()), pushReadyTo_eq_ok.mpr ⟨p, u, hu, rfl, ht⟩, rfl⟩⟩

/-- A tick pushes a packet, reserves the bytes of one, or leaves the fifo alone. -/
theorem txStateMachine_fifo
    (hs : s.txStateMachine .packetFifo cfg env en candidate f = .ok (t, g)) :
    (∃ p u, s.getReadyEthPacket cfg = .ok (p, u) ∧ f.push p = .ok (true, g) ∧
      s.pushReady cfg env true = .ok t) ∨
    (∃ u n v, Aside cfg s u ∧ u.getPacketSize = .ok (n, v) ∧ f.reserve n = .ok g ∧
      v.getPacketDataGlobal cfg env = .ok t) ∨ (g = f ∧ Aside cfg s t) := by
  rcases txStateMachine_cases hs with ⟨rfl, rfl⟩ | ⟨_, h⟩ | ⟨_, _, h⟩
  · exact .inr (Or.inr ⟨rfl, Reach.refl _⟩)
  · exact .inl (pushReady_of_pushReadyTo h)
  · rcases h with ⟨rfl, u, hu, h⟩ | ⟨rfl, h⟩ | ⟨u, hu, h⟩
    · have hfirst : Aside cfg s u := Reach.single (a := .writeback 0) trivial hu
      exact .inr (Or.inr ⟨rfl, hfirst.snoc (a := .fetchDescriptors) trivial h⟩)
    · exact .inr (Or.inr ⟨rfl, Reach.single (a := .fetchDescriptors) trivial h⟩)
    · have hfirst : Aside cfg s u := Reach.single (a := .processContextDesc env) trivial hu
      rcases h with ⟨rfl, rfl⟩ | ⟨_, h⟩
      · exact .inr (Or.inr ⟨rfl, hfirst⟩)
      · obtain ⟨n, v, hv, h⟩ := nextPacket_cases h
        have hsecond := hfirst.snoc (a := TxOp.getPacketSize) trivial (getPacketSize_op hv)
        rcases h with ⟨_, hres, h⟩ | ⟨rfl, h | rfl⟩
        · exact .inr (Or.inl ⟨u, n, v, hfirst, hv, hres, h⟩)
        · exact .inr (Or.inr ⟨rfl, hsecond.snoc (a := .writeback 0) trivial h⟩)
        · exact .inr (Or.inr ⟨rfl, hsecond⟩)

/-- The bytes engine `e` has reserved: all the bytes of its frame. -/
def engineOwed (s : TxDescCacheGlobal) (e : Nat) : Nat :=
  if (s.dmaEngineArray e).pktPtr then (s.dmaEngineArray e).dmaSize
  else ((s.processingPktArray e).map EthPacketData.length).getD 0

def owed (cfg : Config) (s : TxDescCacheGlobal) : Nat := total cfg.numDMAEngines s.engineOwed

inductive FrameAt (s : TxDescCacheGlobal) (e : Nat) : Prop where
  | vacant (hptr : (s.dmaEngineArray e).pktPtr = false)
      (hdone : (s.dmaEngineArray e).pktDone = false) (hpkt : s.processingPktArray e = none)
  | reading (d : Desc TxDesc) (hptr : (s.dmaEngineArray e).pktPtr = true)
      (hdone : (s.dmaEngineArray e).pktDone = false)
      (hpkt : s.processingPktArray e = some (EthPacketData.fresh.extend d.origin))
      (hdesc : (s.processingCache e).desc = some d) (hbusy : (s.processingCache e).done = false)
      (hsize : (s.dmaEngineArray e).dmaSize = d.body.getLen) (heop : d.body.eop = true)
  | ready (p : EthPacketData) (hptr : (s.dmaEngineArray e).pktPtr = false)
      (hpkt : s.processingPktArray e = some p) (hlen : 0 < p.length)

theorem engineOwed_of_same (heng : t.dmaEngineArray e = s.dmaEngineArray e)
    (hpkts : t.processingPktArray e = s.processingPktArray e) :
    t.engineOwed e = s.engineOwed e := by
  unfold engineOwed
  rw [heng, hpkts]

theorem FrameAt.of_same (h : FrameAt s e) (heng : t.dmaEngineArray e = s.dmaEngineArray e)
    (hpkts : t.processingPktArray e = s.processingPktArray e) (hslots : SlotKept s t e) :
    FrameAt t e := by
  cases h with
  | vacant hptr hdone hpkt =>
    rw [← heng] at hptr hdone
    exact .vacant hptr hdone (hpkts.trans hpkt)
  | reading d hptr hdone hpkt hdesc hbusy hsize heop =>
    rw [← heng] at hptr hdone hsize
    rcases hslots with heq | ⟨_, hnone | hdone'⟩
    · exact .reading d hptr hdone (hpkts.trans hpkt) (by rw [heq]; exact hdesc)
        (by rw [heq]; exact hbusy) hsize heop
    · rw [hdesc] at hnone
      cases hnone
    · rw [hbusy] at hdone'
      cases hdone'
  | ready p hptr hpkt hlen =>
    rw [← heng] at hptr
    exact .ready p hptr (hpkts.trans hpkt) hlen

structure Sized (cfg : Config) (s : TxDescCacheGlobal) : Prop where
  kept : Kept cfg (fun _ b => Supplied (fun _ d => d.isSingle = true) b) s
  plain : (s.useTso, s.pktMultiDesc, s.pktHdrWaiting) = (false, false, false)
  engines : ∀ e, FrameAt s e

def SingleOp (s : TxDescCacheGlobal) (o : TxOp) : Prop :=
  Possible s o ∧ match o with
    | .fetchComplete _ data => ∀ d ∈ data, d.isSingle = true
    | _ => True

instance (s : TxDescCacheGlobal) (o : TxOp) : Decidable (SingleOp s o) :=
  match o with
  | .fetchComplete _ data =>
    inferInstanceAs (Decidable (_ ∧ ∀ d ∈ data, TxDesc.isSingle d = true))
  | .setTail _ | .fetchDescriptors | .writeback _ | .writebackComplete _ _
  | .processContextDesc _ | .headerComplete _ | .getPacketSize | .getPacketData _
  | .pktComplete _ _ | .pushReady _ _ => inferInstanceAs (Decidable (_ ∧ True))

namespace Sized

theorem construct (cfg : Config) (base len : Nat) : Sized cfg (construct base len) where
  kept := construct_kept (Supplied.construct _ base len)
  plain := rfl
  engines := fun _ => .vacant rfl rfl rfl

section

variable (h : Sized cfg s)
include h

theorem single (hd : d ∈ s.unusedCache) : d.body.isSingle = true := by
  obtain ⟨_, _, hsup⟩ := h.kept.cache
  obtain ⟨x, hx, rfl⟩ := mem_map.mp (hsup.suffix.subset hd)
  exact hsup.fetched x hx

theorem kept_step (ha : SingleOp s o) (hs : op cfg s o = .ok t) :
    Kept cfg (fun _ b => Supplied (fun _ d => d.isSingle = true) b) t := by
  refine op_supplied h.kept ha.1 ?_ hs
  rintro e data rfl
  exact ha.2

theorem processContextDesc (hs : s.processContextDesc env = .ok t) :
    (t.dmaEngineArray, t.processingPktArray, t.processingCache) =
      (s.dmaEngineArray, s.processingPktArray, s.processingCache) ∧
    (t.useTso, t.pktMultiDesc, t.pktHdrWaiting) = (false, false, false) ∧
    t.unusedCache <:+ s.unusedCache := by
  have hcontexts := takeContexts_keeps (P := fun u => (u.dmaEngineArray, u.processingPktArray,
      u.processingCache) = (s.dmaEngineArray, s.processingPktArray, s.processingCache) ∧
      (u.useTso, u.pktMultiDesc, u.pktHdrWaiting) = (false, false, false) ∧
      u.unusedCache <:+ s.unusedCache) (s := s) (by
    intro u d rest hu huc _ hctx
    obtain ⟨hsame, hplain, hsuffix⟩ := hu
    have hsingle : d.body.isSingle = true :=
      h.single (hsuffix.subset (by rw [huc]; exact mem_cons_self))
    have hplainCtx : (d.body.isType TxDesc.txdCnxt && d.body.tse) = false := by
      simp only [TxDesc.isSingle, or_eq_true, and_eq_true, not_eq_true'] at hsingle
      rcases hsingle with hframe | hc
      · rw [TxDesc.isContext_of_isFrame hframe] at hctx
        cases hctx
      · exact hc.2
    unfold takeContext
    rw [hplainCtx]
    exact ⟨hsame, hplain, (tail_suffix _).trans hsuffix⟩) rfl ⟨rfl, h.plain, suffix_refl _⟩
  obtain ⟨u, hu, ht⟩ := processContextDesc_cases hs
  generalize takeContexts s.unusedCache s = w at hcontexts hu
  obtain ⟨hsame, hplain, hsuffix⟩ := hcontexts
  have huw : u = w := by
    rcases hu with hu | ⟨d, rest, hw, _, hstarts, _⟩
    · exact hu
    · rw [TxDesc.startsTso_of_isSingle (h.single (hsuffix.subset (by
        rw [hw]; exact mem_cons_self)))] at hstarts
      cases hstarts
  subst huw
  rcases ht with ⟨rfl, _⟩ | ⟨d, rest, _, htso, _, _, _, _, _⟩
  · exact ⟨hsame, hplain, hsuffix⟩
  · simp only [Prod.mk.injEq] at hplain
    rw [hplain.1] at htso
    cases htso

theorem getPacketSize {n : Nat} {u : TxDescCacheGlobal} (hs : s.getPacketSize = .ok (n, u)) :
    u = s ∧ ∀ d rest, s.unusedCache = d :: rest → n = d.body.getLen := by
  have hplain := h.plain
  simp only [Prod.mk.injEq] at hplain
  rcases getPacketSize_cases hs with ⟨hnil, _, rfl⟩ | ⟨d, rest, hu, hcase⟩
  · exact ⟨rfl, fun d rest hu => by rw [hnil] at hu; cases hu⟩
  · rcases hcase with ⟨_, rfl, rfl⟩ | ⟨htso, _⟩
    · refine ⟨rfl, ?_⟩
      intro d' rest' hu'
      rw [hu] at hu'
      obtain ⟨rfl, _⟩ := List.cons.inj hu'
      rfl
    · rw [hplain.1] at htso
      cases htso

theorem of_same (hk : Kept cfg (fun _ b => Supplied (fun _ d => d.isSingle = true) b) t)
    (hplain : (t.useTso, t.pktMultiDesc, t.pktHdrWaiting) = (false, false, false))
    (hsame : (t.dmaEngineArray, t.processingPktArray, t.processingCache) =
      (s.dmaEngineArray, s.processingPktArray, s.processingCache)) :
    Sized cfg t ∧ t.engineOwed = s.engineOwed := by
  simp only [Prod.mk.injEq] at hsame
  obtain ⟨heng, hpkts, hslots⟩ := hsame
  refine ⟨⟨hk, hplain, fun e => ?_⟩, funext fun e => ?_⟩
  · exact (h.engines e).of_same (congrFun heng e) (congrFun hpkts e) (Or.inl (congrFun hslots e))
  · exact engineOwed_of_same (congrFun heng e) (congrFun hpkts e)

theorem tickedAside (ho : TickedAside o) (hs : op cfg s o = .ok t) :
    Sized cfg t ∧ t.engineOwed = s.engineOwed := by
  obtain ⟨order, hsteady, _⟩ := h.kept.cache
  cases o with
  | writeback mask =>
    have hk := h.kept_step (o := .writeback mask) ⟨trivial, trivial⟩ hs
    obtain ⟨b, hq, rfl⟩ := op_quiet rfl hsteady (o := .writeback mask) trivial hs
    exact h.of_same hk h.plain (by rw [← hq.packets, ← hq.slots])
  | fetchDescriptors =>
    have hk := h.kept_step (o := .fetchDescriptors) ⟨trivial, trivial⟩ hs
    obtain ⟨b, hq, rfl⟩ := op_quiet rfl hsteady (o := .fetchDescriptors) trivial hs
    exact h.of_same hk h.plain (by rw [← hq.packets, ← hq.slots])
  | getPacketSize =>
    obtain ⟨⟨n, u⟩, hu, hs⟩ := bind_eq_ok.mp hs
    cases hs
    obtain ⟨rfl, _⟩ := h.getPacketSize hu
    exact ⟨h, rfl⟩
  | processContextDesc env =>
    have hk := h.kept_step (o := .processContextDesc env) ⟨trivial, trivial⟩ hs
    obtain ⟨hsame, hplain, _⟩ := h.processContextDesc hs
    exact h.of_same hk hplain hsame
  | setTail tail | fetchComplete e data | writebackComplete e f | headerComplete env
  | getPacketData env | pktComplete env e | pushReady env ok => cases ho

theorem aside (hs : Aside cfg s t) : Sized cfg t ∧ t.engineOwed = s.engineOwed := by
  refine hs.invariant (P := fun u => Sized cfg u ∧ u.engineOwed = s.engineOwed) ⟨h, rfl⟩ ?_
  intro u v o hu ho hst
  obtain ⟨hv, howed⟩ := hu.1.tickedAside ho hst
  exact ⟨hv, howed.trans hu.2⟩

attribute [local simp] TxDescCache.reading beginProcessing assign setPkt engineOwed

theorem getPacketData (hs : s.getPacketDataGlobal cfg env = .ok t) :
    Sized cfg t ∧ ∃ i < cfg.numDMAEngines, ∃ d rest, s.unusedCache = d :: rest ∧
      s.engineOwed i = 0 ∧ t.engineOwed = Function.update s.engineOwed i d.body.getLen := by
  have hk := h.kept_step (o := .getPacketData env) ⟨trivial, trivial⟩ hs
  have hplain := h.plain
  simp only [Prod.mk.injEq] at hplain
  obtain ⟨d, rest, hu, hdata, _, hcase⟩ := getPacketDataGlobal_cases hs
  have hsingle := h.single (d := d) (by rw [hu]; exact mem_cons_self)
  rcases hcase with ⟨_, i, hfree, hpkt, hptr, _, rfl⟩ | ⟨htso, _⟩
  · obtain ⟨hi, _, hdone, hdesc⟩ := getFreeDMAEngine_some hfree
    refine ⟨⟨hk, h.plain, ?_⟩, i, hi, d, rest, hu, by simp [hptr, hpkt], ?_⟩
    · intro e
      by_cases hei : e = i
      · subst hei
        refine .reading d ?_ ?_ ?_ ?_ ?_ ?_ (TxDesc.eop_of_isSingle hsingle hdata) <;> simp [hdone]
      · refine (h.engines e).of_same ?_ ?_ (Or.inl ?_) <;> simp [hei]
    · funext e
      by_cases hei : e = i
      · subst hei
        simp
      · rw [update_of_ne hei]
        refine engineOwed_of_same ?_ ?_
        · simp [hei]
        · simp [hei]
  · rw [hplain.1] at htso
    cases htso

theorem pktComplete (ha : (s.dmaEngineArray e).pktPtr = true)
    (hs : s.pktComplete cfg env e = .ok t) : Sized cfg t ∧ t.engineOwed = s.engineOwed := by
  have hk := h.kept_step (o := .pktComplete env e) ⟨ha, trivial⟩ hs
  have hplain := h.plain
  simp only [Prod.mk.injEq] at hplain
  obtain ⟨order, hsteady, _⟩ := h.kept.cache
  cases h.engines e with
  | vacant hptr _ _ | ready _ hptr _ _ =>
    rw [ha] at hptr
    cases hptr
  | reading d _ _ hpkt hdesc _ hsize heop =>
    obtain ⟨hlen, data, _, hside, hflags, _, hkept⟩ :=
      pktComplete_plain hsteady hplain.1 heop hpkt hdesc hs
    simp only [packetSide, PacketSide.mk.injEq] at hside
    obtain ⟨heng, hpkts, _, _, _, hwaiting⟩ := hside
    simp only [Prod.mk.injEq] at hflags
    have hpkt' := (congrFun hpkts e).trans (update_self _ _ _)
    have hothers : ∀ i, i ≠ e → t.dmaEngineArray i = s.dmaEngineArray i ∧
        t.processingPktArray i = s.processingPktArray i := by
      intro i hi
      exact ⟨by simp [heng, hi], (congrFun hpkts i).trans (update_of_ne hi _ _)⟩
    refine ⟨⟨hk, ?_, ?_⟩, ?_⟩
    · rw [hflags.1, hflags.2, hwaiting, hplain.2.2]
    · intro i
      by_cases hie : i = e
      · subst hie
        exact .ready _ (by simp [heng]) hpkt' (Nat.add_pos_right _ (Nat.pos_of_ne_zero hlen))
      · obtain ⟨hengi, hpkti⟩ := hothers i hie
        exact (h.engines i).of_same hengi hpkti (hkept i hie)
    · funext i
      by_cases hie : i = e
      · subst hie
        simp [ha, hsize, heng, hpkt', EthPacketData.grow, EthPacketData.storeAt,
          EthPacketData.extend, EthPacketData.fresh]
      · obtain ⟨hengi, hpkti⟩ := hothers i hie
        exact engineOwed_of_same hengi hpkti

theorem ready_engine {u : TxDescCacheGlobal} (hp : s.getReadyEthPacket cfg = .ok (p, u)) :
    ∃ i < cfg.numDMAEngines, s.readyEngine cfg = some i ∧ s.processingPktArray i = some p ∧
      (s.dmaEngineArray i).pktPtr = false ∧ s.engineOwed i = p.length ∧ 0 < p.length := by
  obtain ⟨i, hi, hp⟩ := bind_eq_ok.mp hp
  obtain ⟨q, hq, hp⟩ := bind_eq_ok.mp hp
  obtain ⟨_, _, hp⟩ := bind_eq_ok.mp hp
  obtain ⟨rfl, _⟩ := Prod.mk.inj (Except.ok.inj hp)
  have hi := simSome_eq_ok.mp hi
  have hq := simSome_eq_ok.mp hq
  obtain ⟨hlt, hready⟩ := readyEngine_some hi
  refine ⟨i, hlt, hi, hq, ?_⟩
  cases h.engines i with
  | vacant _ _ hpkt =>
    rw [hpkt] at hq
    cases hq
  | reading _ _ hdone _ _ _ _ _ => simp [isReady, hdone] at hready
  | ready q' hptr hpkt hlen =>
    obtain rfl := mem_unique hpkt hq
    exact ⟨hptr, by simp [hptr, hpkt], hlen⟩

theorem pushReady {u : TxDescCacheGlobal} {ok : Bool}
    (hp : s.getReadyEthPacket cfg = .ok (p, u)) (hs : s.pushReady cfg env ok = .ok t) :
    Sized cfg t ∧ ∃ i < cfg.numDMAEngines, s.engineOwed i = p.length ∧
      t.engineOwed = Function.update s.engineOwed i 0 := by
  have hk := h.kept_step (o := .pushReady env ok) ⟨trivial, trivial⟩ hs
  obtain ⟨i, hlt, hi, _, hptr, howed, _⟩ := h.ready_engine hp
  obtain ⟨j, q, b, hj, _, _, hb, rfl⟩ := pushReady_cases hs
  obtain rfl := mem_unique hi hj
  have hq := Quiet.writebackGlobal hb
  have hpkts : ∀ e, e ≠ i → b.processingPktArray e = s.processingPktArray e := by
    intro e hei
    exact (congrFun hq.packets e).trans (by simp [hei])
  have hnone : b.processingPktArray i = none :=
    (congrFun hq.packets i).trans (by simp)
  refine ⟨⟨hk, h.plain, ?_⟩, i, hlt, howed, ?_⟩
  · intro e
    by_cases hei : e = i
    · subst hei
      exact .vacant (by simp [hptr]) (by simp) hnone
    · exact (h.engines e).of_same (by simp [hei]) (hpkts e hei) (Or.inl (congrFun hq.slots e))
  · funext e
    by_cases hei : e = i
    · subst hei
      simp [hptr, hnone]
    · rw [update_of_ne hei]
      exact engineOwed_of_same (by simp [hei]) (hpkts e hei)

theorem event (hext : o.external = true) (ha : SingleOp s o)
    (hs : op cfg s o = .ok t) : Sized cfg t ∧ t.engineOwed = s.engineOwed := by
  have hk := h.kept_step ha hs
  obtain ⟨order, hsteady, _⟩ := h.kept.cache
  cases hc : o.onCache with
  | true =>
    obtain ⟨b, hq, rfl⟩ := op_quiet hc hsteady ha.1 hs
    exact h.of_same hk h.plain (by rw [← hq.packets, ← hq.slots])
  | false =>
    cases o with
    | headerComplete env' =>
      have hplain := h.plain
      simp only [Prod.mk.injEq] at hplain
      have hwait : s.pktHdrWaiting = true := ha.1
      rw [hplain.2.2] at hwait
      cases hwait
    | pktComplete env' e => exact h.pktComplete ha.1 hs
    | setTail tail => cases hc
    | fetchDescriptors => cases hc
    | fetchComplete e data => cases hc
    | writeback mask => cases hc
    | writebackComplete e f => cases hc
    | processContextDesc env' => cases hext
    | getPacketSize => cases hext
    | getPacketData env' => cases hext
    | pushReady env' ok => cases hext

end

theorem owed_of_same (h : t.engineOwed = s.engineOwed) : t.owed cfg = s.owed cfg := by
  unfold owed
  rw [h]

theorem owed_update {n : Nat} (hi : i < cfg.numDMAEngines)
    (howed : t.engineOwed = Function.update s.engineOwed i n) :
    t.owed cfg + s.engineOwed i = s.owed cfg + n := by
  unfold owed
  rw [howed]
  exact total_update (s := s.engineOwed) (m := id) hi n

theorem engineOwed_le (s : TxDescCacheGlobal) (hi : i < cfg.numDMAEngines) :
    s.engineOwed i ≤ s.owed cfg := le_total hi

theorem push_succeeds {u : TxDescCacheGlobal} (h : Sized cfg s) (hf : f.Sound)
    (howed : s.owed cfg ≤ f.reserved) (hp : s.getReadyEthPacket cfg = .ok (p, u)) :
    f.push p = .ok (true, f.add p) ∧ (f.add p).Sound ∧
      (f.add p).reserved + p.length = f.reserved := by
  obtain ⟨i, hi, _, _, _, heq, hpos⟩ := h.ready_engine hp
  have hle := engineOwed_le s hi
  obtain ⟨hpush, hsound, hres⟩ := hf.push hpos (by omega)
  exact ⟨hpush, hsound, by omega⟩

theorem tick (h : Sized cfg s) (hf : f.Sound) (howed : s.owed cfg ≤ f.reserved)
    (hs : s.txStateMachine .packetFifo cfg env en candidate f = .ok (t, g)) :
    Sized cfg t ∧ g.Sound ∧ g.reserved + s.owed cfg = f.reserved + t.owed cfg ∧
      g.maxsize = f.maxsize := by
  rcases txStateMachine_fifo hs with ⟨p, u, hp, hpush, ht⟩ | ⟨u, n, v, hu, hn, hres, ht⟩ |
    ⟨rfl, haside⟩
  · obtain ⟨hsize, i, hi, heq, hupd⟩ := h.pushReady hp ht
    obtain ⟨hpush', hsound, hreserved⟩ := h.push_succeeds hf howed hp
    obtain ⟨_, rfl⟩ := Prod.mk.inj (eq_of_ok hpush hpush')
    have htotal := owed_update hi hupd
    exact ⟨hsize, hsound, by omega, rfl⟩
  · obtain ⟨hsize, hsame⟩ := h.aside hu
    obtain ⟨rfl, hlen⟩ := hsize.getPacketSize hn
    obtain ⟨hsize', i, hi, d, rest, hunused, hzero, hupd⟩ := hsize.getPacketData ht
    obtain ⟨hsound, hreserved, _, _, hmax⟩ := hf.reserve hres
    have htotal := owed_update hi hupd
    have heq := (owed_of_same hsame : v.owed cfg = s.owed cfg)
    have hn := hlen d rest hunused
    exact ⟨hsize', hsound, by omega, hmax⟩
  · obtain ⟨hsize, hsame⟩ := h.aside haside
    exact ⟨hsize, hf, by rw [owed_of_same hsame], rfl⟩

end Sized

end TxDescCacheGlobal

end Gem5.IGbE
