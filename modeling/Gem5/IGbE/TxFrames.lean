import Gem5.IGbE.TxPackets

/-!
# Frames of one descriptor

A descriptor that carries data, ends its packet and does not start a segmentation is a
frame of its own. As long as only such descriptors are fetched, every packet sent is
the buffer of one of them, every descriptor whose DMA read has ended has exactly one
packet, and the packets can all be sent.
-/

namespace Gem5.IGbE

open Bool List Option

open DescCacheGlobal (setPkt beginProcessing)

def TxDesc.isFrame (d : TxDesc) : Bool := d.carriesData && d.eop && !d.startsTso

theorem TxDesc.isContext_of_carriesData {d : TxDesc} (h : d.carriesData = true) :
    d.isContext = false := by
  simp only [carriesData, or_eq_true] at h
  rcases h with hl | hd
  · simp [isContext, hl]
  · simp only [isData, isTypes, isType, and_eq_true, or_eq_true, beq_iff_eq,
      txdData, txdAdvData] at hd
    rcases hd.2 with ht | ht <;> simp [isContext, isTypes, isType, ht, txdCnxt, txdAdvCnxt]

theorem TxDesc.isContext_of_isFrame {d : TxDesc} (h : d.isFrame = true) : d.isContext = false := by
  rw [isFrame, and_eq_true, and_eq_true] at h
  exact isContext_of_carriesData h.1.1

namespace TxEnv

def buffer (env : TxEnv) (d : TxDesc) : List UInt8 := env.read (env.pciToDma d.getBuf) d.getLen

structure SameHost (a b : TxEnv) : Prop where
  mem : a.mem = b.mem
  pciToDma : a.pciToDma = b.pciToDma
  headers : a.headers = b.headers

theorem SameHost.refl (env : TxEnv) : SameHost env env := ⟨rfl, rfl, rfl⟩

theorem SameHost.symm {a b : TxEnv} (h : SameHost a b) : SameHost b a :=
  ⟨h.mem.symm, h.pciToDma.symm, h.headers.symm⟩

structure Accepts (env : TxEnv) (d : TxDesc) : Prop where
  vle : d.vle = false
  pos : 0 < d.getLen
  fits : d.getLen ≤ ethPacketSize
  checksum : ∃ data, env.headers.checksum d (env.buffer d) = .ok data

theorem SameHost.buffer {a b : TxEnv} (h : SameHost a b) : a.buffer = b.buffer := by
  funext d
  unfold TxEnv.buffer read
  rw [h.mem, h.pciToDma]

theorem buffer_length (env : TxEnv) (d : TxDesc) : (env.buffer d).length = d.getLen := by
  simp [buffer, read]

end TxEnv

theorem Headers.checksum_verbatim (h : Headers) {d : TxDesc} (hi : d.ixsm = false)
    (ht : d.txsm = false) (data : List UInt8) : h.checksum d data = .ok data := by
  simp [checksum, hi, ht]

namespace EthPacketData

theorem contents_of_buffer (origin : Nat) {n : Nat} {bytes : List UInt8} (h : bytes.length = n) :
    ((storeAt 0 bytes (fresh.extend origin)).grow n).contents = bytes := by
  unfold contents
  rw [filled_of_length]
  · simp [storeAt, fresh, extend, filled, grow]
  · simp [storeAt, fresh, extend, filled, grow, h]

end EthPacketData

namespace TxDescCacheGlobal

open DescCacheGlobal (Steady Quiet Supplied Retired)

variable {cfg : Config} {env : TxEnv} {s t : TxDescCacheGlobal} {d : Desc TxDesc}
  {p : EthPacketData} {e i : Nat} {o : TxOp} {order : List Nat} {good : TxDesc → Prop}

def IsFrame (env : TxEnv) (s : TxDescCacheGlobal) (p : EthPacketData) : Prop :=
  ∃ k slot d, s.hist.fetched[k]? = some (slot, d) ∧ p.origins = [k] ∧
    env.headers.checksum d.body (env.buffer d.body) = .ok p.contents

inductive AtEngine (env : TxEnv) (s : TxDescCacheGlobal) (e : Nat) : Prop where
  | vacant (hptr : (s.dmaEngineArray e).pktPtr = false)
      (hwait : (s.dmaEngineArray e).pktWaiting = false)
      (hdone : (s.dmaEngineArray e).pktDone = false) (hpkt : s.processingPktArray e = none)
      (hslot : s.SlotDone e)
  | reading (slot : Nat) (d : Desc TxDesc) (hptr : (s.dmaEngineArray e).pktPtr = true)
      (hdone : (s.dmaEngineArray e).pktDone = false)
      (hpkt : s.processingPktArray e = some (EthPacketData.fresh.extend d.origin))
      (hdesc : (s.processingCache e).desc = some d) (hbusy : (s.processingCache e).done = false)
      (hoff : (s.dmaEngineArray e).dmaOff = 0)
      (haddr : (s.dmaEngineArray e).dmaAddr = env.pciToDma d.body.getBuf)
      (hsize : (s.dmaEngineArray e).dmaSize = d.body.getLen)
      (hd : s.hist.fetched[d.origin]? = some (slot, d))
  | ready (p : EthPacketData) (hptr : (s.dmaEngineArray e).pktPtr = false)
      (hwait : (s.dmaEngineArray e).pktWaiting = false)
      (hdone : (s.dmaEngineArray e).pktDone = true) (hpkt : s.processingPktArray e = some p)
      (hlen : 0 < p.length) (hframe : IsFrame env s p) (hslot : s.SlotDone e)

theorem op_supplied {P : TxDesc → Prop} (hk : Kept cfg (fun _ b => Supplied (fun _ d => P d) b) s)
    (ha : Possible s o) (hdata : ∀ e data, o = .fetchComplete e data → ∀ d ∈ data, P d)
    (hs : op cfg s o = .ok t) : Kept cfg (fun _ b => Supplied (fun _ d => P d) b) t := by
  have hmoves : DescCacheGlobal.CacheMoves cfg (fun _ => True)
      (DescCacheGlobal.Arrives fun _ d => P d)
      (fun _ b => Supplied (π := EthPacketData) (fun _ d => P d) b) :=
    Supplied.cacheMoves fun _ _ _ harr => harr
  refine op_keeps hmoves hk ha (fun _ _ _ => trivial) ?_ (fun _ _ _ hsup => hsup.of_same rfl) hs
  intro e data ho x b hb
  exact hdata e data ho b (mem_of_getElem? hb)

theorem IsFrame.mono (h : IsFrame env s p)
    (hf : ∀ {k : Nat} {x}, s.hist.fetched[k]? = some x → t.hist.fetched[k]? = some x) :
    IsFrame env t p := by
  obtain ⟨k, slot, d, hd, ho, hc⟩ := h
  exact ⟨k, slot, d, hf hd, ho, hc⟩

theorem AtEngine.of_same (h : AtEngine env s e) (heng : t.dmaEngineArray e = s.dmaEngineArray e)
    (hpkts : t.processingPktArray e = s.processingPktArray e) (hslots : SlotKept s t e)
    (hf : ∀ {k : Nat} {x}, s.hist.fetched[k]? = some x → t.hist.fetched[k]? = some x) :
    AtEngine env t e := by
  have hslotDone : s.SlotDone e → t.SlotDone e := by
    intro hslot
    rcases hslots with heq | ⟨hnone, _⟩
    · unfold SlotDone
      rw [heq]
      exact hslot
    · exact .inl hnone
  cases h with
  | vacant hptr hwait hdone hpkt hslot =>
    rw [← heng] at hptr hwait hdone
    exact .vacant hptr hwait hdone (hpkts.trans hpkt) (hslotDone hslot)
  | reading slot d hptr hdone hpkt hdesc hbusy hoff haddr hsize hd =>
    rw [← heng] at hptr hdone hoff haddr hsize
    rcases hslots with heq | ⟨_, hnone | hdone'⟩
    · exact .reading slot d hptr hdone (hpkts.trans hpkt) (by rw [heq]; exact hdesc)
        (by rw [heq]; exact hbusy) hoff haddr hsize (hf hd)
    · rw [hdesc] at hnone
      cases hnone
    · rw [hbusy] at hdone'
      cases hdone'
  | ready p hptr hwait hdone hpkt hlen hframe hslot =>
    rw [← heng] at hptr hwait hdone
    exact .ready p hptr hwait hdone (hpkts.trans hpkt) hlen (hframe.mono hf) (hslotDone hslot)

theorem IsFrame.host {env' : TxEnv} (h : IsFrame env s p) (hh : env.SameHost env') :
    IsFrame env' s p := by
  obtain ⟨k, slot, d, hd, ho, hc⟩ := h
  exact ⟨k, slot, d, hd, ho, by rw [← hh.headers, ← hh.buffer]; exact hc⟩

theorem AtEngine.host {env' : TxEnv} (h : AtEngine env s e) (hh : env.SameHost env') :
    AtEngine env' s e := by
  cases h with
  | vacant hptr hwait hdone hpkt hslot => exact .vacant hptr hwait hdone hpkt hslot
  | reading slot d hptr hdone hpkt hdesc hbusy hoff haddr hsize hd =>
    exact .reading slot d hptr hdone hpkt hdesc hbusy hoff (by rw [← hh.pciToDma]; exact haddr)
      hsize hd
  | ready p hptr hwait hdone hpkt hlen hframe hslot =>
    exact .ready p hptr hwait hdone hpkt hlen (hframe.host hh) hslot

theorem AtEngine.of_quiet {b : DescCacheGlobal TxDesc EthPacketData} (h : AtEngine env s e)
    (hq : Quiet s.toDescCacheGlobal b) : AtEngine env { s with toDescCacheGlobal := b } e :=
  h.of_same rfl (congrFun hq.packets e) (Or.inl (congrFun hq.slots e)) (fun hx => hq.fetched hx)

attribute [local simp] setPkt setEngine completed

theorem packetDone_plain {body : TxDesc} (hs : Steady cfg order s.toDescCacheGlobal)
    (hslot : (s.processingCache e).desc.isSome = true) (htso : s.useTso = false)
    (h : s.packetDone cfg env e body p = .ok t) :
    ∃ data, env.headers.checksum body p.contents = .ok data ∧ t.packetSide = { s.packetSide with
        engines := Function.update s.dmaEngineArray e
          { s.dmaEngineArray e with pktDone := true, pktWaiting := false }
        packets := Function.update s.processingPktArray e (some { p with data := data }) } ∧
      (t.useTso, t.pktMultiDesc) = (false, false) ∧ t.SlotDone e ∧ ∀ i, i ≠ e → SlotKept s t i := by
  obtain ⟨data, hdata, hside⟩ := packetDone_packetSide h
  refine ⟨data, by simpa [offload, htso] using hdata, hside, ?_⟩
  obtain ⟨_, _, data', u, _, hu, ht⟩ := packetDone_cases h
  have hretire : (s.completed env e body p data').retire cfg e = .ok u := by
    rcases hu with ⟨_, hu⟩ | ⟨huse, _, _⟩
    · exact hu
    · rw [htso] at huse
      cases huse
  have hs' : Steady cfg order (s.completed env e body p data').toDescCacheGlobal :=
    (hs.setBody e _).setPkt e _
  obtain ⟨hdone, hkept⟩ := retire_slots hs' (by
    simpa [DescCacheGlobal.setBody] using hslot) hretire
  obtain ⟨b, _, rfl⟩ := retire_cases hretire
  have hend : ({ s.completed env e body p data' with
      toDescCacheGlobal := b, tsoDescBytesUsed := 0 } : TxDescCacheGlobal).endTso =
      { s.completed env e body p data' with toDescCacheGlobal := b, tsoDescBytesUsed := 0 } := by
    unfold endTso
    simp [htso]
  rw [hend] at ht
  have hrest : t.processingCache = b.processingCache ∧
      (t.useTso, t.pktMultiDesc) = (false, false) := by
    rcases writebackAfterPacket_cases ht with rfl | ⟨m, b', hb', rfl⟩
    · exact ⟨rfl, by simp [engineDone, htso]⟩
    · exact ⟨(Quiet.writebackGlobal hb').slots, by simp [engineDone, htso]⟩
  refine ⟨hrest.2, ?_, ?_⟩
  · unfold SlotDone
    rw [hrest.1]
    exact hdone
  · intro i hi
    have hsame : (s.completed env e body p data').processingCache i = s.processingCache i := by
      simp [DescCacheGlobal.setBody, hi]
    have := hkept i hi
    unfold SlotKept at this ⊢
    rw [hrest.1, ← hsame]
    exact this

theorem received_plain (htso : s.useTso = false) : s.received e d p = (p.grow d.body.getLen,
      { s with toDescCacheGlobal := s.setPkt e (some (p.grow d.body.getLen)) }) := by
  simp [received, htso]

theorem pktComplete_plain (hs : Steady cfg order s.toDescCacheGlobal) (htso : s.useTso = false)
    (heop : d.body.eop = true) (hpkt : s.processingPktArray e = some p)
    (hdesc : (s.processingCache e).desc = some d) (h : s.pktComplete cfg env e = .ok t) :
    let q := (p.storeAt (s.dmaEngineArray e).dmaOff
      (env.read (s.dmaEngineArray e).dmaAddr (s.dmaEngineArray e).dmaSize)).grow d.body.getLen
    d.body.getLen ≠ 0 ∧ ∃ data, env.headers.checksum d.body q.contents = .ok data ∧
      t.packetSide = { s.packetSide with
        engines := Function.update s.dmaEngineArray e { s.dmaEngineArray e with
          pktPtr := false, pktDone := true, pktWaiting := false, dmaAddr := 0 }
        packets := Function.update s.processingPktArray e (some { q with data := data }) } ∧
      (t.useTso, t.pktMultiDesc) = (false, false) ∧ t.SlotDone e ∧ ∀ i, i ≠ e → SlotKept s t i := by
  obtain ⟨p', d', q, v, u, _, _, hp, hd', _, hlen, hrec, hcase, rfl⟩ := pktComplete_cases h
  obtain rfl : p = p' := mem_unique hpkt hp
  obtain rfl : d = d' := mem_unique hdesc hd'
  rw [received_plain (show (s.landed env e).useTso = false from htso)] at hrec
  obtain ⟨rfl, rfl⟩ := Prod.mk.inj hrec
  obtain ⟨_, hu⟩ := hcase.resolve_left (by
    rintro ⟨hmore, _⟩
    simp [moreToCome, heop, landed, htso] at hmore)
  obtain ⟨data, hsum, hside, hrest⟩ := packetDone_plain (s := { s.landed env e with
    toDescCacheGlobal := (s.landed env e).setPkt e _ }) ((hs.setPkt e _).setPkt e _) (by
      simpa [landed] using isSome_of_eq_some hdesc) htso hu
  refine ⟨hlen, data, hsum, ?_, hrest⟩
  simp only [packetSide, landed, setPkt, Function.update_idem, PacketSide.mk.injEq] at hside ⊢
  simp [hside]

theorem pktComplete_frame {slot : Nat} (hs : Steady cfg order s.toDescCacheGlobal)
    (htso : s.useTso = false) (heop : d.body.eop = true)
    (hpkt : s.processingPktArray e = some (EthPacketData.fresh.extend d.origin))
    (hdesc : (s.processingCache e).desc = some d) (hoff : (s.dmaEngineArray e).dmaOff = 0)
    (haddr : (s.dmaEngineArray e).dmaAddr = env.pciToDma d.body.getBuf)
    (hsize : (s.dmaEngineArray e).dmaSize = d.body.getLen)
    (hd : s.hist.fetched[d.origin]? = some (slot, d)) (h : s.pktComplete cfg env e = .ok t) :
    AtEngine env t e ∧ (∀ i, i ≠ e → AtEngine env s i → AtEngine env t i) ∧
      (t.useTso, t.pktMultiDesc) = (false, false) := by
  obtain ⟨hlen, data, hsum, hside, hflags, hdone, hkept⟩ :=
    pktComplete_plain hs htso heop hpkt hdesc h
  rw [hoff, haddr, hsize] at hsum hside
  have hread : (env.read (env.pciToDma d.body.getBuf) d.body.getLen).length = d.body.getLen :=
    env.buffer_length d.body
  rw [EthPacketData.contents_of_buffer d.origin hread] at hsum
  have hbytes : data.length = d.body.getLen := (Headers.checksum_length hsum).trans hread
  simp only [packetSide, PacketSide.mk.injEq] at hside
  obtain ⟨heng, hpkts, _, _, hfetched, _⟩ := hside
  refine ⟨?_, ?_, hflags⟩
  · refine .ready _ ?_ ?_ ?_ ((congrFun hpkts e).trans (Function.update_self _ _ _))
      (Nat.add_pos_right _ (Nat.pos_of_ne_zero hlen)) ?_ hdone
    · simp [heng]
    · simp [heng]
    · simp [heng]
    · refine ⟨d.origin, slot, d, by rwa [hfetched], rfl, ?_⟩
      rw [EthPacketData.contents, EthPacketData.filled_of_length]
      · exact hsum
      · simp [hbytes, EthPacketData.grow, EthPacketData.storeAt, EthPacketData.extend,
          EthPacketData.fresh]
  · intro i hi hat
    refine hat.of_same (by simp [heng, hi]) ?_ (hkept i hi) (fun hx => by rwa [hfetched])
    exact (congrFun hpkts i).trans (Function.update_of_ne hi _ _)

def EachOnce (cfg : Config) (s : TxDescCacheGlobal) : Prop :=
  (s.inPackets cfg).Perm (List.range s.taken)

theorem eachOnce_step {P : Nat → TxDesc → Prop} (hk : Kept cfg (fun _ b => Supplied P b) s)
    (ha : Possible s o) (hd : s.takesDirectly o = false) (h : op cfg s o = .ok t)
    (honce : EachOnce cfg s) : EachOnce cfg t := by
  unfold EachOnce inPackets at honce ⊢
  rcases op_packets hk ha h with ⟨hheld, hsent, _, htaken⟩ | ⟨e, he, _, hheld, hsent, htaken⟩ |
    ⟨e, he, p, hp, hheld, hsent, htaken⟩
  · rw [hheld, hsent, htaken hd]
    exact honce
  · obtain ⟨rest, hold, hnew⟩ := flatMap_range_update s.held (s.held e ++ [s.taken]) he
    rw [hheld, hsent, htaken, range_succ]
    have hmove : (s.held e ++ [s.taken] ++ rest).Perm (s.held e ++ rest ++ [s.taken]) := by
      rw [append_assoc, append_assoc]
      exact List.Perm.append_left _ perm_append_comm
    refine ((hnew.trans hmove).append_left _).trans ?_
    rw [← append_assoc]
    exact ((hold.symm.append_left _).trans honce).append_right _
  · obtain ⟨rest, hold, hnew⟩ := flatMap_range_update s.held [] he
    rw [hheld, hsent, htaken]
    refine List.Perm.trans ?_ ((hold.symm.append_left _).trans honce)
    rw [hp]
    simpa using (hnew.append_left p.origins).append_left (s.sent.flatMap EthPacketData.origins)

/-- Only descriptors with property `good` arrive, and the host memory stays as it is. -/
def FrameOp (env : TxEnv) (good : TxDesc → Prop) (s : TxDescCacheGlobal) (o : TxOp) : Prop :=
  Possible s o ∧ match o with
    | .fetchComplete _ data => ∀ d ∈ data, good d
    | .getPacketData env' | .pktComplete env' _ => env'.SameHost env
    | _ => True

structure Framing (cfg : Config) (env : TxEnv) (good : TxDesc → Prop) (s : TxDescCacheGlobal) :
    Prop where
  kept : Kept cfg (fun _ b => Supplied (fun _ d => good d) b) s
  plain : (s.useTso, s.pktMultiDesc, s.pktHdrWaiting) = (false, false, false)
  engines : ∀ e, AtEngine env s e
  sent : ∀ p ∈ s.sent, IsFrame env s p
  once : EachOnce cfg s

namespace Framing

theorem construct (cfg : Config) (env : TxEnv) (good : TxDesc → Prop) (base len : Nat) :
    Framing cfg env good (construct base len) where
  kept := construct_kept (Supplied.construct _ base len)
  plain := rfl
  engines := fun _ => .vacant rfl rfl rfl rfl (Or.inl rfl)
  sent := by simp [TxDescCacheGlobal.construct]
  once := by
    have hnone : (TxDescCacheGlobal.construct base len).held = fun _ => [] := rfl
    unfold EachOnce inPackets
    rw [hnone]
    simp [TxDescCacheGlobal.construct, DescCacheGlobal.construct, DescCacheGlobal.taken]

theorem getPacketSize_eq {n : Nat} {u : TxDescCacheGlobal} (h : Framing cfg env good s)
    (hs : s.getPacketSize = .ok (n, u)) : u = s := by
  have hplain := h.plain
  simp only [Prod.mk.injEq] at hplain
  rcases getPacketSize_cases hs with ⟨_, _, rfl⟩ | ⟨d, rest, _, hcase⟩
  · rfl
  · rcases hcase with ⟨_, _, rfl⟩ | ⟨htso, _⟩
    · rfl
    · rw [hplain.1] at htso
      cases htso

theorem pushReady {env' : TxEnv} {ok : Bool} (h : Framing cfg env good s)
    (hs : s.pushReady cfg env' ok = .ok t) :
    (∀ i, AtEngine env t i) ∧ (∀ p ∈ t.sent, IsFrame env t p) ∧
      (t.useTso, t.pktMultiDesc, t.pktHdrWaiting) = (false, false, false) := by
  obtain ⟨i, p, b, hi, hp, _, hb, rfl⟩ := pushReady_cases hs
  have hq := Quiet.writebackGlobal hb
  have hready := (readyEngine_some hi).2
  have hfetched : ∀ {k : Nat} {x}, s.hist.fetched[k]? = some x → b.hist.fetched[k]? = some x :=
    fun hx => hq.fetched hx
  cases h.engines i with
  | vacant _ _ _ hpkt _ =>
    rw [hpkt] at hp
    cases hp
  | reading _ _ _ hdone _ _ _ _ _ _ _ =>
    simp [isReady, hdone] at hready
  | ready p' hptr hwait _ hpkt _ hframe hslot =>
    obtain rfl := mem_unique hpkt hp
    refine ⟨?_, ?_, h.plain⟩
    · intro e
      by_cases hei : e = i
      · subst hei
        refine .vacant ?_ ?_ ?_ ?_ ?_
        · simp [hptr]
        · simp [hwait]
        · simp
        · exact (congrFun hq.packets e).trans (by simp)
        · unfold SlotDone
          rw [show b.processingCache = s.processingCache from hq.slots]
          exact hslot
      · refine (h.engines e).of_same ?_ ?_ (Or.inl (congrFun hq.slots e)) hfetched
        · simp [hei]
        · exact (congrFun hq.packets e).trans (by simp [hei])
    · intro q hqm
      rcases mem_append.mp hqm with hqm | hqm
      · exact (h.sent q hqm).mono hfetched
      · rw [mem_singleton.mp hqm]
        exact hframe.mono hfetched

variable (hgood : ∀ d, good d → d.isFrame = true)
include hgood

section

variable (h : Framing cfg env good s)
include h

theorem front {rest : List (Desc TxDesc)}
    (hu : s.unusedCache = d :: rest) : d.body.isFrame = true ∧ good d.body ∧
      ∃ slot, s.hist.fetched[d.origin]? = some (slot, d) := by
  obtain ⟨_, _, hsup⟩ := h.kept.cache
  obtain ⟨ho, slot, hd, hg⟩ := hsup.front hu
  exact ⟨hgood _ hg, hg, slot, by rw [ho]; exact hd⟩

theorem takesDirectly (ha : Possible s o) : s.takesDirectly o = false := by
  cases o with
  | processContextDesc env =>
    unfold TxDescCacheGlobal.takesDirectly
    cases hu : s.unusedCache with
    | nil => simp
    | cons d rest => simp [TxDesc.isContext_of_isFrame (h.front hgood hu).1]
  | headerComplete env =>
    have hplain := h.plain
    simp only [Prod.mk.injEq] at hplain
    rw [Possible, hplain.2.2] at ha
    cases ha
  | _ => rfl

theorem processContextDesc_eq (env' : TxEnv) : s.processContextDesc env' = .ok s := by
  have hplain := h.plain
  simp only [Prod.mk.injEq] at hplain
  unfold processContextDesc
  rw [takeContexts_eq_self (h.takesDirectly hgood (o := .processContextDesc env') trivial)]
  cases hu : s.unusedCache with
  | nil => simp [hu]
  | cons d rest =>
    have hstarts : d.body.startsTso = false := by
      have := (h.front hgood hu).1
      simp only [TxDesc.isFrame, and_eq_true, not_eq_true'] at this
      exact this.2
    simp [hu, hplain.1, hstarts]

attribute [local simp] TxDescCache.reading assign beginProcessing

theorem getPacketData {env' : TxEnv} (hh : env'.SameHost env)
    (hs : s.getPacketDataGlobal cfg env' = .ok t) :
    (∀ e, AtEngine env t e) ∧ t.sent = s.sent ∧ t.hist.fetched = s.hist.fetched ∧
      (t.useTso, t.pktMultiDesc, t.pktHdrWaiting) = (false, false, false) := by
  have hplain := h.plain
  simp only [Prod.mk.injEq] at hplain
  obtain ⟨d, rest, hu, _, _, hcase⟩ := getPacketDataGlobal_cases hs
  rcases hcase with ⟨_, i, hfree, hpkt, hptr, _, rfl⟩ | ⟨htso, _⟩
  · obtain ⟨_, hd, slot, hfetched⟩ := h.front hgood hu
    obtain ⟨_, _, hdone, hdesc⟩ := getFreeDMAEngine_some hfree
    refine ⟨?_, rfl, rfl, h.plain⟩
    intro e
    by_cases hei : e = i
    · subst hei
      refine .reading slot d ?_ ?_ ?_ ?_ ?_ ?_ ?_ ?_ hfetched <;> simp [hdone, hh.pciToDma]
    · refine (h.engines e).of_same ?_ ?_ (Or.inl ?_) (fun hx => hx) <;> simp [hei]
  · rw [hplain.1] at htso
    cases htso

theorem pktComplete {env' : TxEnv} (hh : env'.SameHost env)
    (hs : s.pktComplete cfg env' e = .ok t) :
    (∀ i, AtEngine env t i) ∧ t.sent = s.sent ∧ t.hist.fetched = s.hist.fetched ∧
      (t.useTso, t.pktMultiDesc, t.pktHdrWaiting) = (false, false, false) := by
  obtain ⟨order, hsteady, _⟩ := h.kept.cache
  have hplain := h.plain
  simp only [Prod.mk.injEq] at hplain
  obtain ⟨_, _, _, _, hside⟩ := pktComplete_packetSide hs
  simp only [packetSide, PacketSide.mk.injEq] at hside
  obtain ⟨p, d', q, v, u, hptr, _, _, hd', _, _, _, _, _⟩ := pktComplete_cases hs
  cases h.engines e with
  | vacant hptr' _ _ _ _ | ready _ hptr' _ _ _ _ _ _ =>
    rw [hptr'] at hptr
    cases hptr
  | reading slot d _ _ hpkt hdesc _ hoff haddr hsize hd =>
    have heop : d.body.eop = true := by
      obtain ⟨_, _, hsup⟩ := h.kept.cache
      have := hgood _ (hsup.fetched _ (mem_of_getElem? hd))
      simp only [TxDesc.isFrame, and_eq_true] at this
      exact this.1.2
    obtain ⟨hat, hothers, hflags⟩ := pktComplete_frame hsteady hplain.1 heop hpkt hdesc hoff
      (by rw [hh.pciToDma]; exact haddr) hsize hd hs
    simp only [Prod.mk.injEq] at hflags
    refine ⟨?_, hside.2.2.1, hside.2.2.2.2.1, ?_⟩
    · intro i
      by_cases hie : i = e
      · rw [hie]
        exact hat.host hh
      · exact (hothers i hie ((h.engines i).host hh.symm)).host hh
    · rw [hflags.1, hflags.2, hside.2.2.2.2.2, hplain.2.2]

theorem step (ha : FrameOp env good s o) (hs : op cfg s o = .ok t) : Framing cfg env good t := by
  have hdirect := h.takesDirectly hgood ha.1
  have hkept := op_supplied h.kept ha.1 (by
    rintro e data rfl
    exact ha.2) hs
  have honce := eachOnce_step h.kept ha.1 hdirect hs h.once
  obtain ⟨order, hsteady, _⟩ := h.kept.cache
  cases hc : o.onCache with
  | true =>
    obtain ⟨b, hq, rfl⟩ := op_quiet hc hsteady ha.1 hs
    exact ⟨hkept, h.plain, fun e => (h.engines e).of_quiet hq,
      fun p hp => (h.sent p hp).mono fun hx => hq.fetched hx, honce⟩
  | false =>
    cases o with
    | processContextDesc env' =>
      obtain rfl := Except.ok.inj ((h.processContextDesc_eq hgood env').symm.trans hs)
      exact h
    | headerComplete env' =>
      have hplain := h.plain
      simp only [Prod.mk.injEq] at hplain
      have hwait : s.pktHdrWaiting = true := ha.1
      rw [hplain.2.2] at hwait
      cases hwait
    | getPacketSize =>
      obtain ⟨⟨n, u⟩, hu, hs⟩ := bind_eq_ok.mp hs
      cases hs
      rw [h.getPacketSize_eq hu]
      exact h
    | getPacketData env' =>
      obtain ⟨hengines, hsent, hfetched, hplain⟩ := h.getPacketData hgood ha.2 hs
      exact ⟨hkept, hplain, hengines, by
        rw [hsent]
        exact fun p hp => (h.sent p hp).mono fun hx => by rwa [hfetched], honce⟩
    | pktComplete env' e =>
      obtain ⟨hengines, hsent, hfetched, hplain⟩ := h.pktComplete hgood ha.2 hs
      exact ⟨hkept, hplain, hengines, by
        rw [hsent]
        exact fun p hp => (h.sent p hp).mono fun hx => by rwa [hfetched], honce⟩
    | pushReady env' ok =>
      obtain ⟨hengines, hsent, hplain⟩ := h.pushReady hs
      exact ⟨hkept, hplain, hengines, hsent, honce⟩
    | setTail | fetchDescriptors | fetchComplete | writeback | writebackComplete => cases hc

end

end Framing

end TxDescCacheGlobal

end Gem5.IGbE
