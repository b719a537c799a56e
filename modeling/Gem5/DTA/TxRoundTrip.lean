import Gem5.DTA.TxWorker
import Gem5.M2func.TxIdle

/-!
# What the workers hand over is what the device sends

The write requests of the workers, cut into flits, give the device the payloads back in
order, as long as no descriptor asks the device to write checksums into the payload.
`Carrying` says where the device is: between two payloads or after `k` flits of one.
-/

namespace Gem5.DTA

open List Nat

open IGbE TxM2funcContext

structure TxPayload.Described (x : TxPayload) : Prop where
  data : CxlTxd.cxlIsContext ⟨x.descriptor.d⟩ = false
  reserved1 : x.descriptor.reserved1 = 0
  dtalen : x.descriptor.dtalen = x.payload.length
  pos : 1 ≤ x.payload.length
  fits : x.payload.length ≤ 16384

structure TxPayload.Plain (x : TxPayload) : Prop extends x.Described where
  ixsm : CxlTxd.cxlIxsm ⟨x.descriptor.d⟩ = false
  txsm : CxlTxd.cxlTxsm ⟨x.descriptor.d⟩ = false

instance (x : TxPayload) : Decidable x.Described :=
  decidable_of_iff (CxlTxd.cxlIsContext ⟨x.descriptor.d⟩ = false ∧ x.descriptor.reserved1 = 0 ∧
      x.descriptor.dtalen = x.payload.length ∧ 1 ≤ x.payload.length ∧ x.payload.length ≤ 16384)
    ⟨fun h => ⟨h.1, h.2.1, h.2.2.1, h.2.2.2.1, h.2.2.2.2⟩,
      fun h => ⟨h.data, h.reserved1, h.dtalen, h.pos, h.fits⟩⟩

instance (x : TxPayload) : Decidable x.Plain :=
  decidable_of_iff (x.Described ∧ CxlTxd.cxlIxsm ⟨x.descriptor.d⟩ = false ∧
      CxlTxd.cxlTxsm ⟨x.descriptor.d⟩ = false)
    ⟨fun h => ⟨h.1, h.2.1, h.2.2⟩, fun h => ⟨h.toDescribed, h.ixsm, h.txsm⟩⟩

namespace TxPayload

variable {x : TxPayload} {k : Nat}

theorem ethernetPkt_length (x : TxPayload) : x.ethernetPkt.length = 8 + x.payload.length := by
  simp [ethernetPkt, littleEndian, TXDescriptor.size]

theorem numCxlReq_bounds (x : TxPayload) : 0 < x.numCxlReq ∧
    (x.numCxlReq - 1) * 64 < 8 + x.payload.length ∧ 8 + x.payload.length ≤ x.numCxlReq * 64 := by
  unfold numCxlReq flitSize TXDescriptor.size
  omega

@[simp] theorem flits_length (x : TxPayload) : x.flits.length = x.numCxlReq := by
  simp [flits]

theorem drop_flits (hk : k < x.numCxlReq) :
    x.flits.drop k = Cells.cell 64 x.ethernetPkt k :: x.flits.drop (k + 1) := by
  have hlt : k < x.flits.length := by rw [flits_length]; exact hk
  rw [drop_eq_getElem_cons hlt]
  simp [flits, flitSize]

theorem flits_short (x : TxPayload) : ∀ data ∈ x.flits, data.length ≤ flitSize := by
  intro data hd
  obtain ⟨i, _, rfl⟩ := mem_map.mp hd
  exact length_take_le _ _

/-- The bytes of the payload in the first `k` flits. -/
def part (k : Nat) (x : TxPayload) : List UInt8 := (x.ethernetPkt.take (k * 64)).drop 8

theorem part_length (k : Nat) (x : TxPayload) :
    (x.part k).length = min (k * 64) (8 + x.payload.length) - 8 := by
  simp [part, ethernetPkt_length]

theorem part_succ (hk : 0 < k) : x.part (k + 1) = x.part k ++ Cells.cell 64 x.ethernetPkt k := by
  have hlen := ethernetPkt_length x
  unfold part Cells.cell
  rw [succ_mul, take_add, drop_append_of_le_length]
  rw [length_take]
  omega

theorem part_one : x.part 1 = (Cells.cell 64 x.ethernetPkt 0).drop 8 := by
  simp [part, Cells.cell]

theorem part_all (hk : x.numCxlReq ≤ k) : x.part k = x.payload := by
  have hb := (numCxlReq_bounds x).2.2
  unfold part
  rw [take_of_length_le (by rw [ethernetPkt_length]; omega)]
  simp [ethernetPkt, littleEndian, TXDescriptor.size]

theorem part_complete (hk : k ≤ x.numCxlReq) (hlen : (x.part k).length = x.payload.length)
    (hpos : 1 ≤ x.payload.length) : k = x.numCxlReq := by
  obtain ⟨_, hlast, _⟩ := numCxlReq_bounds x
  rw [part_length] at hlen
  omega

theorem cell_length_pos (hk : k < x.numCxlReq) : 0 < (Cells.cell 64 x.ethernetPkt k).length ∧
      (Cells.cell 64 x.ethernetPkt k).length ≤ 8 + x.payload.length - k * 64 ∧
      (Cells.cell 64 x.ethernetPkt k).length ≤ 64 := by
  obtain ⟨_, hlast, _⟩ := numCxlReq_bounds x
  unfold Cells.cell
  rw [length_take, length_drop, ethernetPkt_length]
  omega

theorem cell_zero_length (x : TxPayload) :
    (Cells.cell 64 x.ethernetPkt 0).length = min 64 (8 + x.payload.length) := by
  simp [Cells.cell, ethernetPkt_length]

theorem txDescOf_first (x : TxPayload) :
    txDescOf (Cells.cell 64 x.ethernetPkt 0) = ⟨x.descriptor.d⟩ := by
  have htake : (Cells.cell 64 x.ethernetPkt 0).take 8 = littleEndian 8 x.descriptor.d.toNat := by
    have hlen : (littleEndian 8 x.descriptor.d.toNat).length = 8 := by simp [littleEndian]
    exact take_left' hlen
  unfold txDescOf
  rw [htake, ofLittleEndian_littleEndian, mod_eq_of_lt (by exact x.descriptor.d.isLt),
    BitVec.ofNat_toNat, BitVec.setWidth_eq]

namespace Plain

theorem cxlGetLen (h : Plain x) : CxlTxd.cxlGetLen ⟨x.descriptor.d⟩ = x.payload.length := by
  have hlen := h.dtalen
  have hres := h.reserved1
  unfold TXDescriptor.dtalen at hlen
  unfold TXDescriptor.reserved1 at hres
  unfold CxlTxd.cxlGetLen
  split
  · exact hlen
  · simp only [getBits] at hlen hres ⊢
    omega

theorem startsPlain (h : Plain x) : startsPlain (Cells.cell 64 x.ethernetPkt 0) = true := by
  have hpos : 0 < x.payload.length := h.pos
  have hfits := h.fits
  simp only [TxM2funcContext.startsPlain, txDescOf_first, h.cxlGetLen, h.data, ethPacketSize]
  simpa using And.intro hpos hfits

theorem descSize_lt (h : Plain x) : descSize < (Cells.cell 64 x.ethernetPkt 0).length := by
  have hpos := h.pos
  rw [cell_zero_length, descSize]
  omega

end Plain

end TxPayload

namespace TxPath

variable {h : Headers} {s t : TxPath} {maxsize : Nat} {done : List (List UInt8)}
  {waiting : List TxPayload} {a : TxPathAct}

def unsent (queue : List CxlReq) : List (List UInt8) :=
  queue.filterMap fun r =>
    match r with
    | .write data _ => some data
    | .read _ => none

def stream (s : TxPath) : List (List UInt8) := s.context.m2funcTxFifo ++ unsent s.cxlReqQueue

theorem unsent_requests (x : TxPayload) : unsent x.requests = x.flits := by
  unfold unsent TxPayload.requests TxPayload.flits
  rw [filterMap_map]
  exact congrFun filterMap_eq_map _

theorem unsent_append (q r : List CxlReq) : unsent (q ++ r) = unsent q ++ unsent r :=
  filterMap_append

/-- Where the device is in the flits of `x` and those of the payloads after it. -/
inductive Carrying (s : TxPath) (done : List (List UInt8)) (waiting : List TxPayload) : Prop
  | between : s.context.txPacket = none → s.stream = waiting.flatMap TxPayload.flits →
      s.submitted = done ++ waiting.map TxPayload.payload → Carrying s done waiting
  | inside (x : TxPayload) (k : Nat) (p : EthPacketData) : x.Plain → 0 < k → k ≤ x.numCxlReq →
      s.context.txPacket = some p → s.context.txDesc = x.descriptor.d →
      s.context.ethPktSize = x.payload.length → p.contents = x.part k →
      s.stream = x.flits.drop k ++ waiting.flatMap TxPayload.flits →
      s.submitted = done ++ x.payload :: waiting.map TxPayload.payload → Carrying s done waiting

structure Carried (s : TxPath) : Prop where
  settled : s.context.Settled
  fifo : s.txFifo.Sound
  reserved : s.txFifo.reserved = s.context.owed
  short : ∀ data ∈ unsent s.cxlReqQueue, data.length ≤ flitSize
  payloads : ∃ waiting, (∀ x ∈ waiting, x.Plain) ∧
    Carrying s (s.txFifo.pushed.map EthPacketData.contents) waiting

theorem Carried.construct (hmax : maxsize < 2 ^ 31) : Carried (construct maxsize) where
  settled := .construct
  fifo := .construct hmax
  reserved := rfl
  short := fun _ hd => absurd hd not_mem_nil
  payloads := ⟨[], by simp, .between rfl rfl rfl⟩

theorem flits_cons (x : TxPayload) : x.flits = Cells.cell 64 x.ethernetPkt 0 :: x.flits.drop 1 := by
  simpa using TxPayload.drop_flits (TxPayload.numCxlReq_bounds x).1

variable {bytes data : List UInt8} {rest : List (List UInt8)}

theorem front_of_flatMap (hfront : waiting.flatMap TxPayload.flits = data :: rest) :
    ∃ x later, waiting = x :: later ∧ data = Cells.cell 64 x.ethernetPkt 0 ∧
      rest = x.flits.drop 1 ++ later.flatMap TxPayload.flits := by
  cases waiting with
  | nil => cases hfront
  | cons x later =>
    rw [flatMap_cons, flits_cons] at hfront
    obtain ⟨hdata, hrest⟩ := List.cons.inj hfront
    exact ⟨x, later, rfl, hdata.symm, hrest.symm⟩

theorem stream_front (hfifo : s.context.m2funcTxFifo = data :: rest) :
    s.stream = data :: (rest ++ unsent s.cxlReqQueue) := by
  rw [stream, hfifo, cons_append]

theorem Carrying.startsWell (hc : Carrying s done waiting) (hw : ∀ x ∈ waiting, x.Plain) :
    s.context.startsWell = true := by
  cases hc with
  | inside x k p _ _ _ hp => simp [TxM2funcContext.startsWell, hp]
  | between hnone hstream _ =>
    cases hfifo : s.context.m2funcTxFifo with
    | nil => simp [TxM2funcContext.startsWell, hfifo]
    | cons data rest =>
      obtain ⟨x, later, rfl, rfl, _⟩ := front_of_flatMap (hstream.symm.trans (stream_front hfifo))
      simp [TxM2funcContext.startsWell, hfifo, (hw x mem_cons_self).startsPlain]

theorem Carrying.summable (hc : Carrying s done waiting) (hw : ∀ x ∈ waiting, x.Plain) :
    Summable h s.context := by
  cases hc with
  | inside x k p hx _ _ hp hdesc =>
    refine ⟨fun hnone => absurd (hp.symm.trans hnone) (by simp), fun _ part => ⟨part, ?_⟩⟩
    rw [hdesc, hx.ixsm, hx.txsm]
    rfl
  | between hnone hstream _ =>
    refine ⟨fun _ data rest hfifo part => ⟨part, ?_⟩, fun hsome => absurd hnone hsome⟩
    obtain ⟨x, later, rfl, rfl, _⟩ := front_of_flatMap (hstream.symm.trans (stream_front hfifo))
    have hx := hw x mem_cons_self
    rw [TxPayload.txDescOf_first, hx.ixsm, hx.txsm]
    rfl

theorem Carrying.descSize_lt (hc : Carrying s done waiting) (hw : ∀ x ∈ waiting, x.Plain)
    (hnone : s.context.txPacket = none) (hfifo : s.context.m2funcTxFifo = data :: rest) :
    descSize < data.length := by
  cases hc with
  | inside x k p _ _ _ hp => exact absurd (hp.symm.trans hnone) (by simp)
  | between _ hstream _ =>
    obtain ⟨x, later, rfl, rfl, _⟩ := front_of_flatMap (hstream.symm.trans (stream_front hfifo))
    exact (hw x mem_cons_self).descSize_lt

theorem Carried.returns (hcar : Carried s) (candidate : Bool) :
    ∃ c f, s.context.txM2funcStateMachine h candidate s.txFifo = .ok (c, f) := by
  obtain ⟨waiting, hw, hc⟩ := hcar.payloads
  obtain ⟨⟨c, f⟩, hr⟩ := txM2funcStateMachine_returns candidate (hc.summable hw) hcar.settled
    hcar.fifo hcar.reserved.ge (hc.startsWell hw) (fun hnone data rest => hc.descSize_lt hw hnone)
  exact ⟨c, f, hr⟩

def work (s : TxPath) : Nat := 2 * s.stream.length + if s.context.txPacket.isSome then 1 else 0

def ticked (c : TxM2funcContext) (f : PacketFifo) (s : TxPath) : TxPath :=
  { s with context := c, txFifo := f }

theorem grown_contents {n : Nat} (p : EthPacketData)
    (hlen : bytes.length = p.length + n) : (grown n bytes p).contents = bytes :=
  EthPacketData.filled_of_length hlen

theorem resetContext_idle {c : TxM2funcContext} (hset : c.Settled) (hnone : c.txPacket = none) :
    c.resetContext = c := by
  obtain ⟨hdesc, hsize⟩ := hset.reset hnone
  obtain ⟨hrecv, hdone⟩ := hset.empty hnone
  obtain ⟨pktDone, ethPktSize, txDesc, receivedPktSize, tso, fifo, packet, bitmask⟩ := c
  obtain rfl : txDesc = 0 := hdesc
  obtain rfl : ethPktSize = 0 := hsize
  obtain rfl : receivedPktSize = 0 := hrecv
  obtain rfl : pktDone = false := hdone
  rfl

theorem Carrying.pushed {p : EthPacketData} (hset : s.context.Settled)
    (hc : Carrying s done waiting) (hp : s.context.txPacket = some p)
    (hdone : s.context.pktDone = true) :
    Carrying (s.ticked { s.context.resetContext with txPacket := none } (s.txFifo.add p))
        (done ++ [p.contents]) waiting ∧
      (s.ticked { s.context.resetContext with txPacket := none } (s.txFifo.add p)).work <
        s.work := by
  cases hc with
  | between hnone => exact absurd (hp.symm.trans hnone) (by simp)
  | inside x k q hx hpos hk hq hdesc hsize hcontents hstream hsub =>
    obtain rfl := Option.mem_unique hp hq
    obtain ⟨_, _, hiff⟩ := hset.busy p hp
    have hlen := hset.packet p hp
    have hpart : (x.part k).length = x.payload.length := by
      rw [← hcontents, EthPacketData.contents_length, hlen, hiff.mp hdone, hsize]
    obtain rfl := TxPayload.part_complete hk hpart hx.pos
    have hwhole : p.contents = x.payload := hcontents.trans (TxPayload.part_all le_rfl)
    refine ⟨.between rfl ?_ ?_, ?_⟩
    · have hnil : x.flits.drop x.numCxlReq = [] := drop_of_length_le (by simp)
      rw [hnil] at hstream
      exact hstream
    · rw [hwhole, append_assoc]
      exact hsub
    · change 2 * s.stream.length + 0 < s.work
      unfold work
      rw [hp]
      simp

theorem Carrying.continued {p : EthPacketData} (hset : s.context.Settled)
    (hc : Carrying s done waiting)
    (hp : s.context.txPacket = some p) (hdone : s.context.pktDone = false)
    (hfifo : s.context.m2funcTxFifo = data :: rest)
    (hbytes : h.txM2funcChecksum (CxlTxd.cxlIxsm ⟨s.context.txDesc⟩)
      (CxlTxd.cxlTxsm ⟨s.context.txDesc⟩)
      (p.contents ++ data.take (s.context.laterPart data)) = .ok bytes) :
    Carrying (s.ticked (s.context.received (s.context.laterPart data)
        (grown (s.context.laterPart data) bytes p)) s.txFifo) done waiting ∧
      (s.ticked (s.context.received (s.context.laterPart data)
        (grown (s.context.laterPart data) bytes p)) s.txFifo).work < s.work := by
  cases hc with
  | between hnone => exact absurd (hp.symm.trans hnone) (by simp)
  | inside x k q hx hpos hk hq hdesc hsize hcontents hstream hsub =>
    obtain rfl := Option.mem_unique hp hq
    obtain ⟨_, hle, hiff⟩ := hset.busy p hp
    have hlen := hset.packet p hp
    have hpart := TxPayload.part_length k x
    rw [← hcontents, EthPacketData.contents_length] at hpart
    have hne : s.context.receivedPktSize ≠ s.context.ethPktSize := by
      intro heq
      rw [hiff.mpr heq] at hdone
      cases hdone
    -- not all bytes are there, so not all flits are
    have hlt : k < x.numCxlReq := by
      rcases Nat.lt_or_eq_of_le hk with hlt | rfl
      · exact hlt
      · have hb := (TxPayload.numCxlReq_bounds x).2.2
        omega
    rw [TxPayload.drop_flits hlt, stream_front hfifo] at hstream
    obtain ⟨rfl, hrest⟩ := List.cons.inj hstream
    obtain ⟨_, hcell, _⟩ := TxPayload.cell_length_pos hlt
    have hall : s.context.laterPart (Cells.cell 64 x.ethernetPkt k) =
        (Cells.cell 64 x.ethernetPkt k).length := by
      unfold laterPart
      omega
    rw [hall, take_length, hdesc, hx.ixsm, hx.txsm, hcontents, ← TxPayload.part_succ hpos]
      at hbytes
    obtain rfl : x.part (k + 1) = bytes := Except.ok.inj hbytes
    have htail : (s.ticked (s.context.received (s.context.laterPart (Cells.cell 64 x.ethernetPkt k))
        (grown (s.context.laterPart (Cells.cell 64 x.ethernetPkt k)) (x.part (k + 1)) p))
        s.txFifo).stream = rest ++ unsent s.cxlReqQueue := by
      change (s.context.received _ _).m2funcTxFifo ++ unsent s.cxlReqQueue = _
      rw [received_m2funcTxFifo, hfifo]
      rfl
    refine ⟨.inside x (k + 1) _ hx (succ_pos k) hlt received_txPacket ?_ ?_ ?_ ?_ hsub, ?_⟩
    · exact received_txDesc.trans hdesc
    · exact received_ethPktSize.trans hsize
    · apply grown_contents
      rw [TxPayload.part_succ hpos, length_append, hall, ← hcontents, EthPacketData.contents_length]
    · exact htail.trans hrest
    · unfold work
      rw [htail, stream_front hfifo, hp]
      change 2 * _ + (if (s.context.received _ _).txPacket.isSome then 1 else 0) < _
      simp

theorem Carrying.started {f : PacketFifo}
    (hw : ∀ x ∈ waiting, x.Plain) (hc : Carrying s done waiting)
    (hnone : s.context.txPacket = none) (hfifo : s.context.m2funcTxFifo = data :: rest)
    (hbytes : h.txM2funcChecksum (txDescOf data).cxlIxsm (txDescOf data).cxlTxsm
      ((data.drop descSize).take (firstLength data)) = .ok bytes) :
    (∃ later, (∀ x ∈ later, x.Plain) ∧
      Carrying (s.ticked ((s.context.opened data).received (firstLength data)
        (grown (firstLength data) bytes .fresh)) f) done later) ∧
      (s.ticked ((s.context.opened data).received (firstLength data)
        (grown (firstLength data) bytes .fresh)) f).work < s.work := by
  cases hc with
  | inside x k p _ _ _ hp => exact absurd (hp.symm.trans hnone) (by simp)
  | between _ hstream hsub =>
    obtain ⟨x, later, rfl, rfl, hrest⟩ :=
      front_of_flatMap (hstream.symm.trans (stream_front hfifo))
    have hx := hw x mem_cons_self
    have hcell := (TxPayload.cell_length_pos (TxPayload.numCxlReq_bounds x).1).2.1
    have hfirst : firstLength (Cells.cell 64 x.ethernetPkt 0) =
        ((Cells.cell 64 x.ethernetPkt 0).drop descSize).length := by
      unfold firstLength
      rw [TxPayload.txDescOf_first, hx.cxlGetLen, length_drop]
      unfold descSize at *
      omega
    rw [hfirst, take_length, TxPayload.txDescOf_first, hx.ixsm, hx.txsm] at hbytes
    obtain rfl : x.part 1 = bytes := TxPayload.part_one.trans (Except.ok.inj hbytes)
    have htail : (s.ticked ((s.context.opened (Cells.cell 64 x.ethernetPkt 0)).received
        (firstLength (Cells.cell 64 x.ethernetPkt 0))
        (grown (firstLength (Cells.cell 64 x.ethernetPkt 0)) (x.part 1) .fresh)) f).stream =
        rest ++ unsent s.cxlReqQueue := by
      change (received _ _ _).m2funcTxFifo ++ unsent s.cxlReqQueue = _
      rw [received_m2funcTxFifo]
      change s.context.m2funcTxFifo.tail ++ _ = _
      rw [hfifo]
      rfl
    refine ⟨⟨later, fun y hy => hw y (mem_cons_of_mem x hy),
      .inside x 1 _ hx Nat.one_pos (TxPayload.numCxlReq_bounds x).1 received_txPacket
        ?_ ?_ ?_ ?_ ?_⟩, ?_⟩
    · refine received_txDesc.trans ?_
      change (txDescOf _).d = _
      rw [TxPayload.txDescOf_first]
    · refine received_ethPktSize.trans ?_
      change (txDescOf _).cxlGetLen = _
      rw [TxPayload.txDescOf_first, hx.cxlGetLen]
    · apply grown_contents
      rw [hfirst]
      exact (zero_add _).symm
    · exact htail.trans hrest
    · exact hsub
    · unfold work
      rw [htail, stream_front hfifo]
      change 2 * _ + (if (received _ _ _).txPacket.isSome then 1 else 0) < _
      simp
      omega

inductive Stalled (candidate : Bool) (s : TxPath) : Prop
  | turn : candidate = false → Stalled candidate s
  | flits : (s.context.txPacket = none ∨ s.context.pktDone = false) →
      s.context.m2funcTxFifo = [] → Stalled candidate s
  | room (data : List UInt8) (rest : List (List UInt8)) : s.context.txPacket = none →
      s.context.m2funcTxFifo = data :: rest →
      s.txFifo.availUnsigned 64 ≤ (txDescOf data).cxlGetLen → Stalled candidate s

theorem Carried.tick {candidate : Bool} {c : TxM2funcContext} {f : PacketFifo}
    (hcar : Carried s) (hs : s.context.txM2funcStateMachine h candidate s.txFifo = .ok (c, f)) :
    Carried (s.ticked c f) ∧ f.maxsize = s.txFifo.maxsize ∧
      (Stalled candidate s ∨ (s.ticked c f).work < s.work) := by
  obtain ⟨waiting, hw, hc⟩ := hcar.payloads
  have hset := hcar.settled
  have hstart := hc.startsWell hw
  have htick := txM2funcStateMachine_tick hset.toFilling hs
  obtain ⟨hf, howed, hmax⟩ := htick.fifo hset.toFilling hcar.fifo hcar.reserved.ge
  have hset' := htick.settled hset hstart
  have hreserved : f.reserved = c.owed := by
    have := hcar.reserved
    omega
  cases htick with
  | waits _ _ hturn => exact ⟨hcar, rfl, .inl (.turn hturn)⟩
  | empty hidle hfifo => exact ⟨hcar, rfl, .inl (.flits hidle hfifo)⟩
  | @pushed p _ hp hdone _ hpush =>
    obtain ⟨hlen, hpos⟩ := hset.complete hp hdone
    obtain ⟨hpush', _, _⟩ := hcar.fifo.push hpos (by rw [hlen]; exact hcar.reserved.ge)
    obtain ⟨_, rfl⟩ := Prod.mk.inj (eq_of_ok hpush hpush')
    obtain ⟨hcarry, hwork⟩ := hc.pushed hset hp hdone
    refine ⟨⟨hset', hf, hreserved, hcar.short, waiting, hw, ?_⟩, hmax, .inr hwork⟩
    change Carrying _ ((s.txFifo.pushed ++ [p]).map EthPacketData.contents) waiting
    rw [map_append]
    exact hcarry
  | continued hp hdone hfifo _ hbytes =>
    obtain ⟨hcarry, hwork⟩ := hc.continued hset hp hdone hfifo hbytes
    exact ⟨⟨hset', hf, hreserved, hcar.short, waiting, hw, hcarry⟩, rfl, .inr hwork⟩
  | context hnone hfifo hctx =>
    obtain ⟨hplain, _, _⟩ := startsWell_front hstart hnone hfifo
    rw [hctx] at hplain
    cases hplain
  | @started data bytes rest _ hnone hfifo _ _ _ _ hres hbytes =>
    obtain ⟨_, _, _, hpushed, _⟩ := hcar.fifo.reserve hres
    obtain ⟨⟨later, hlater, hcarry⟩, hwork⟩ := hc.started (f := f) hw hnone hfifo hbytes
    refine ⟨⟨hset', hf, hreserved, hcar.short, later, hlater, ?_⟩, hmax, .inr hwork⟩
    change Carrying _ (f.pushed.map EthPacketData.contents) later
    rw [hpushed]
    exact hcarry
  | @full data rest hnone hfifo hroom =>
    have hsame : s.ticked s.context.resetContext s.txFifo = s := by
      rw [resetContext_idle hset hnone]
      rfl
    rw [hsame]
    exact ⟨hcar, rfl, .inl (.room data rest hnone hfifo hroom)⟩
  | zero hnone hfifo _ hlen =>
    obtain ⟨_, hpos, _⟩ := startsWell_front hstart hnone hfifo
    omega

theorem Carrying.append {x : TxPayload} (hc : Carrying s done waiting)
    (hstream : t.stream = s.stream ++ x.flits)
    (hcontext : t.context.txPacket = s.context.txPacket ∧ t.context.txDesc = s.context.txDesc ∧
      t.context.ethPktSize = s.context.ethPktSize)
    (hsub : t.submitted = s.submitted ++ [x.payload]) : Carrying t done (waiting ++ [x]) := by
  obtain ⟨hpacket, hdesc', hsize'⟩ := hcontext
  cases hc with
  | between hnone hold hsubmitted =>
    refine .between (hpacket.trans hnone) ?_ ?_
    · simp [hstream, hold]
    · simp [hsub, hsubmitted]
  | inside y k p hy hpos hk hp hdesc hsize hcontents hold hsubmitted =>
    refine .inside y k p hy hpos hk (hpacket.trans hp) (hdesc'.trans hdesc) (hsize'.trans hsize)
      hcontents ?_ ?_
    · simp [hstream, hold]
    · simp [hsub, hsubmitted]

theorem Carrying.of_same (hc : Carrying s done waiting) (hstream : t.stream = s.stream)
    (hcontext : t.context.txPacket = s.context.txPacket ∧ t.context.txDesc = s.context.txDesc ∧
      t.context.ethPktSize = s.context.ethPktSize)
    (hsub : t.submitted = s.submitted) : Carrying t done waiting := by
  obtain ⟨hpacket, hdesc', hsize'⟩ := hcontext
  cases hc with
  | between hnone hold hsubmitted =>
    exact .between (hpacket.trans hnone) (hstream.trans hold) (hsub.trans hsubmitted)
  | inside y k p hy hpos hk hp hdesc hsize hcontents hold hsubmitted =>
    exact .inside y k p hy hpos hk (hpacket.trans hp) (hdesc'.trans hdesc) (hsize'.trans hsize)
      hcontents (hstream.trans hold) (hsub.trans hsubmitted)

theorem Carried.notify {x : TxPayload} (hcar : Carried s) (hx : x.Plain) :
    Carried (s.notify x) := by
  obtain ⟨waiting, hw, hc⟩ := hcar.payloads
  unfold TxPath.notify notifyWorkerCompletion
  by_cases hfull : cxlReqQueueMaxSize < s.cxlReqQueue.length + x.numCxlReq
  · rw [if_pos hfull]
    exact ⟨hcar.settled, hcar.fifo, hcar.reserved, hcar.short, waiting, hw,
      hc.of_same rfl ⟨rfl, rfl, rfl⟩ rfl⟩
  · rw [if_neg hfull]
    refine ⟨hcar.settled, hcar.fifo, hcar.reserved, ?_, waiting ++ [x], ?_,
      hc.append ?_ ⟨rfl, rfl, rfl⟩ rfl⟩
    · intro data hd
      rw [unsent_append, unsent_requests] at hd
      rcases mem_append.mp hd with hd | hd
      · exact hcar.short data hd
      · exact x.flits_short data hd
    · intro y hy
      rcases mem_append.mp hy with hy | hy
      · exact hw y hy
      · rw [mem_singleton.mp hy]
        exact hx
    · change s.context.m2funcTxFifo ++ unsent (s.cxlReqQueue ++ x.requests) = _
      rw [unsent_append, unsent_requests, ← append_assoc]
      rfl

theorem Carried.createRead (hcar : Carried s) (jobID : Nat) : Carried (s.createRead jobID) := by
  obtain ⟨waiting, hw, hc⟩ := hcar.payloads
  unfold TxPath.createRead
  split
  · have hread : unsent (s.cxlReqQueue ++ [CxlReq.read jobID]) = unsent s.cxlReqQueue :=
      (unsent_append _ _).trans (append_nil _)
    refine ⟨hcar.settled, hcar.fifo, hcar.reserved, ?_, waiting, hw,
      hc.of_same ?_ ⟨rfl, rfl, rfl⟩ rfl⟩
    · rw [hread]
      exact hcar.short
    · exact congrArg (s.context.m2funcTxFifo ++ ·) hread
  · exact hcar

theorem Carried.send (hcar : Carried s) : ∃ t, s.send = .ok t ∧ Carried t ∧
    t.cxlReqQueue = s.cxlReqQueue.tail ∧ t.txFifo = s.txFifo ∧ t.submitted = s.submitted := by
  obtain ⟨waiting, hw, hc⟩ := hcar.payloads
  have hset := hcar.settled
  have hshort := hcar.short
  unfold TxPath.send
  cases hq : s.cxlReqQueue with
  | nil => exact ⟨s, rfl, hcar, hq, rfl, rfl⟩
  | cons r rest =>
    rw [hq] at hshort
    cases r with
    | read jobID =>
      refine ⟨_, rfl, ⟨hset, hcar.fifo, hcar.reserved, hshort, waiting, hw,
        hc.of_same ?_ ⟨rfl, rfl, rfl⟩ rfl⟩, rfl, rfl, rfl⟩
      rw [stream, stream, hq]
      rfl
    | write data header =>
      have hfits : data.length ≤ flitSize := hshort data mem_cons_self
      simp only [writeM2funcPacket, simAssert_of (decide_eq_true hfits)]
      refine ⟨_, rfl, ⟨⟨⟨hset.empty, hset.busy, hset.packet, hset.short⟩, hset.reset, hset.owned,
        hset.noTso⟩, hcar.fifo, hcar.reserved, ?_, waiting, hw, hc.of_same ?_ ⟨rfl, rfl, rfl⟩ rfl⟩,
        rfl, rfl, rfl⟩
      · exact fun b hb => hshort b (mem_cons_of_mem data hb)
      · rw [stream, stream, hq]
        change s.context.m2funcTxFifo ++ [data] ++ unsent rest =
          s.context.m2funcTxFifo ++ data :: unsent rest
        simp

theorem Carried.pop (hcar : Carried s) : Carried { s with txFifo := s.txFifo.pop } := by
  obtain ⟨waiting, hw, hc⟩ := hcar.payloads
  obtain ⟨hf, hreserved, hpushed, _, _⟩ := hcar.fifo.pop
  refine ⟨hcar.settled, hf, hreserved.trans hcar.reserved, hcar.short, waiting, hw, ?_⟩
  rw [hpushed]
  exact hc.of_same rfl ⟨rfl, rfl, rfl⟩ rfl

def PlainAct (_ : TxPath) : TxPathAct → Prop
  | .notify x => x.Plain
  | _ => True

instance (s : TxPath) (a : TxPathAct) : Decidable (PlainAct s a) :=
  match a with
  | .notify x => inferInstanceAs (Decidable x.Plain)
  | .createRead _ | .send | .tick _ | .pop => isTrue trivial

def DescribedAct (_ : TxPath) : TxPathAct → Prop
  | .notify x => x.Described
  | _ => True

instance (s : TxPath) (a : TxPathAct) : Decidable (DescribedAct s a) :=
  match a with
  | .notify x => inferInstanceAs (Decidable x.Described)
  | .createRead _ | .send | .tick _ | .pop => isTrue trivial

theorem Carried.act (hcar : Carried s) (ha : PlainAct s a) :
    ∃ t, s.step h a = .ok t ∧ Carried t := by
  cases a with
  | notify x => exact ⟨_, rfl, hcar.notify ha⟩
  | createRead jobID => exact ⟨_, rfl, hcar.createRead jobID⟩
  | send =>
    obtain ⟨t, ht, hcar', _⟩ := hcar.send
    exact ⟨t, ht, hcar'⟩
  | tick candidate =>
    obtain ⟨c, f, hr⟩ := hcar.returns (h := h) candidate
    refine ⟨s.ticked c f, ?_, (hcar.tick hr).1⟩
    simp only [step, hr]
    rfl
  | pop => exact ⟨_, rfl, hcar.pop⟩

theorem carried_reach (hmax : maxsize < 2 ^ 31)
    (hr : Reach (step h) PlainAct (construct maxsize) s) : Carried s := by
  refine hr.invariant (Carried.construct hmax) ?_
  intro u v b hu hb hs
  obtain ⟨t, ht, hcar⟩ := hu.act (h := h) hb
  obtain rfl := eq_of_ok hs ht
  exact hcar

theorem maxsize_reach (hmax : maxsize < 2 ^ 31)
    (hr : Reach (step h) PlainAct (construct maxsize) s) : s.txFifo.maxsize = maxsize := by
  refine hr.invariant_under (P := fun u => u.txFifo.maxsize = maxsize) (Q := Carried)
    (fun hpath => carried_reach hmax hpath) rfl ?_
  intro u v b hu hsize _ hs
  cases b with
  | notify x =>
    cases hs
    exact hsize
  | createRead jobID =>
    cases hs
    unfold TxPath.createRead
    split <;> exact hsize
  | send =>
    obtain ⟨t, ht, _, _, hfifo, _⟩ := hu.send
    obtain rfl := eq_of_ok ht hs
    rw [hfifo]
    exact hsize
  | tick candidate =>
    obtain ⟨⟨c, f⟩, hc, hs⟩ := bind_eq_ok.mp hs
    cases hs
    exact (hu.tick hc).2.1.trans hsize
  | pop =>
    cases hs
    exact hu.fifo.pop.2.2.2.1.trans hsize

def Onward (_ : TxPath) : TxPathAct → Prop
  | .notify _ | .createRead _ => False
  | _ => True

theorem Carried.sends : ∀ {n : Nat} {s : TxPath}, Carried s → s.cxlReqQueue.length = n →
    ∃ t, Reach (step h) Onward s t ∧ Carried t ∧ t.cxlReqQueue = [] ∧ t.txFifo = s.txFifo ∧
      t.submitted = s.submitted := by
  intro n
  induction n with
  | zero =>
    intro s hcar hn
    exact ⟨s, Reach.refl s, hcar, length_eq_zero_iff.mp hn, rfl, rfl⟩
  | succ n ih =>
    intro s hcar hn
    obtain ⟨u, hu, hcaru, hqueue, hfifo, hsub⟩ := hcar.send
    obtain ⟨t, hreach, hcart, hempty, hfifo', hsub'⟩ := ih hcaru (by rw [hqueue]; simp [hn])
    exact ⟨t, (Reach.single (a := .send) trivial hu).trans hreach, hcart, hempty,
      hfifo'.trans hfifo, hsub'.trans hsub⟩

theorem Carried.drains : ∀ {n : Nat} {s : TxPath}, Carried s → s.txFifo.fifo.length = n →
    ∃ t, Reach (step h) Onward s t ∧ Carried t ∧ t.txFifo.fifo = [] ∧
      t.txFifo.maxsize = s.txFifo.maxsize ∧ t.context = s.context ∧
      t.cxlReqQueue = s.cxlReqQueue ∧ t.submitted = s.submitted := by
  intro n
  induction n with
  | zero =>
    intro s hcar hn
    exact ⟨s, Reach.refl s, hcar, length_eq_zero_iff.mp hn, rfl, rfl, rfl, rfl⟩
  | succ n ih =>
    intro s hcar hn
    obtain ⟨_, _, _, hmax, htail⟩ := hcar.fifo.pop
    obtain ⟨t, hreach, hcart, hempty, hmax', hcontext, hqueue, hsub⟩ := ih hcar.pop (by
      rw [htail]
      simp [hn])
    exact ⟨t, (Reach.single (a := .pop) trivial rfl).trans hreach, hcart, hempty,
      hmax'.trans hmax, hcontext, hqueue, hsub⟩

theorem Carried.not_stalled (hcar : Carried s) (hqueue : s.cxlReqQueue = [])
    (hempty : s.txFifo.fifo = []) (hmore : s.work ≠ 0)
    (hroom : ∀ b ∈ s.submitted, b.length < s.txFifo.maxsize) : ¬ Stalled true s := by
  obtain ⟨waiting, hw, hc⟩ := hcar.payloads
  have hstream : s.stream = s.context.m2funcTxFifo := by
    rw [stream, hqueue]
    exact append_nil _
  intro hstall
  cases hstall with
  | turn hfalse => cases hfalse
  | flits hidle hfifo =>
    cases hc with
    | between hnone _ _ =>
      apply hmore
      simp [work, hstream, hfifo, hnone]
    | inside x k p hx hpos hk hp hdesc hsize hcontents hold _ =>
      have hdone : s.context.pktDone = false := hidle.resolve_left (by simp [hp])
      have hnil : x.flits.drop k = [] := by
        rw [hstream, hfifo] at hold
        exact (append_eq_nil_iff.mp hold.symm).1
      have hall : x.numCxlReq ≤ k := by simpa using hnil
      obtain ⟨_, _, hiff⟩ := hcar.settled.busy p hp
      have hlen := hcar.settled.packet p hp
      have hfull : s.context.receivedPktSize = s.context.ethPktSize := by
        rw [hsize, ← hlen, ← EthPacketData.contents_length, hcontents, TxPayload.part_all hall]
      rw [hiff.mpr hfull] at hdone
      cases hdone
  | room data rest hnone hfifo havail =>
    cases hc with
    | inside x k p _ _ _ hp => exact absurd (hp.symm.trans hnone) (by simp)
    | between _ hold hsub =>
      obtain ⟨x, later, rfl, rfl, _⟩ := front_of_flatMap (hold.symm.trans (stream_front hfifo))
      have hlen := hroom x.payload (by rw [hsub]; simp)
      have hsize := hcar.fifo.size_eq
      have hreserved := hcar.reserved
      rw [owed_of_none hnone] at hreserved
      rw [hempty] at hsize
      rw [TxPayload.txDescOf_first, (hw x mem_cons_self).cxlGetLen,
        hcar.fifo.availUnsigned_eq (by decide), hsize] at havail
      simp only [map_nil, sum_nil] at havail
      omega

theorem Carried.finishes : ∀ {n : Nat} {s : TxPath}, Carried s → s.cxlReqQueue = [] →
    (∀ b ∈ s.submitted, b.length < s.txFifo.maxsize) → s.work ≤ n →
    ∃ t, Reach (step h) Onward s t ∧ Carried t ∧ t.work = 0 ∧ t.submitted = s.submitted := by
  intro n
  induction n with
  | zero =>
    intro s hcar _ _ hn
    exact ⟨s, Reach.refl s, hcar, le_zero.mp hn, rfl⟩
  | succ n ih =>
    intro s hcar hqueue hroom hn
    rcases Nat.eq_zero_or_pos s.work with hzero | hpos
    · exact ⟨s, Reach.refl s, hcar, hzero, rfl⟩
    · obtain ⟨u, hreach, hcaru, hempty, hmax, hcontext, hqueue', hsub⟩ := hcar.drains (h := h) rfl
      have hwork : u.work = s.work := by
        unfold work stream
        rw [hcontext, hqueue']
      obtain ⟨c, f, hr⟩ := hcaru.returns (h := h) true
      obtain ⟨hcart, hmax', hless⟩ := hcaru.tick hr
      have hroomu : ∀ b ∈ u.submitted, b.length < u.txFifo.maxsize := by
        rw [hsub, hmax]
        exact hroom
      have hlt := hless.resolve_left (hcaru.not_stalled (hqueue'.trans hqueue) hempty
        (by omega) hroomu)
      have hstep : u.step h (.tick true) = .ok (u.ticked c f) := by
        simp only [step, hr]
        rfl
      obtain ⟨t, hrest, hcart', hzero, hsub'⟩ := ih hcart (hqueue'.trans hqueue) (by
        change ∀ b ∈ u.submitted, b.length < f.maxsize
        rw [hmax']
        exact hroomu) (by omega)
      exact ⟨t, (hreach.snoc (a := TxPathAct.tick true) trivial hstep).trans hrest, hcart', hzero,
        hsub'.trans hsub⟩

theorem Carried.received (hcar : Carried s) :
    s.txFifo.pushed.map EthPacketData.contents <+: s.submitted ∧
      (s.work = 0 → s.txFifo.pushed.map EthPacketData.contents = s.submitted) := by
  obtain ⟨waiting, hw, hc⟩ := hcar.payloads
  cases hc with
  | between hnone hold hsub =>
    refine ⟨⟨_, hsub.symm⟩, ?_⟩
    intro hzero
    have hnil : waiting = [] := by
      cases waiting with
      | nil => rfl
      | cons x later =>
        rw [flatMap_cons, flits_cons] at hold
        simp [work, hold] at hzero
    rw [hsub, hnil]
    simp
  | inside x k p _ _ _ hp _ _ _ _ hsub =>
    refine ⟨⟨_, hsub.symm⟩, ?_⟩
    intro hzero
    simp [work, hp] at hzero

/-- In every run the fifo has received the first of the payloads handed over, in order and
each once, and no assert fails; and if the fifo is larger than each payload, the device can
go on until it has received all of them. -/
theorem dta_tx_round_trip (hmax : maxsize < 2 ^ 31)
    (hr : Reach (step h) PlainAct (construct maxsize) s) :
    s.txFifo.pushed.map EthPacketData.contents <+: s.submitted ∧
      (∀ a, PlainAct s a → ∃ t, s.step h a = .ok t) ∧
      ((∀ b ∈ s.submitted, b.length < maxsize) →
        ∃ t, Reach (step h) Onward s t ∧ t.submitted = s.submitted ∧
          t.txFifo.pushed.map EthPacketData.contents = s.submitted) := by
  have hcar := carried_reach hmax hr
  refine ⟨hcar.received.1, ?_, ?_⟩
  · intro a ha
    obtain ⟨t, ht, _⟩ := hcar.act (h := h) ha
    exact ⟨t, ht⟩
  · intro hroom
    obtain ⟨u, hreach, hcaru, hqueue, hfifo, hsub⟩ := hcar.sends (h := h) rfl
    obtain ⟨t, hrest, hcart, hzero, hsub'⟩ := hcaru.finishes (h := h) hqueue (by
      rw [hsub, hfifo, maxsize_reach hmax hr]
      exact hroom) le_rfl
    have hall := hsub'.trans hsub
    exact ⟨t, hreach.trans hrest, hall, (hcart.received.2 hzero).trans hall⟩

def legacyPayload : TxPayload := ⟨⟨3⟩, [7, 8, 9]⟩

def checksumPayload : TxPayload := ⟨⟨0x10020100001⟩, [7]⟩

theorem dta_tx_round_trip_three_bytes :
    ∃ s t, Reach (step noHeaders) PlainAct (construct 100) s ∧ s.submitted = [[7, 8, 9]] ∧
      s.txFifo.pushed = [] ∧ Reach (step noHeaders) Onward s t ∧
      t.txFifo.pushed.map EthPacketData.contents = [[7, 8, 9]] := by
  obtain ⟨s, hr, hp⟩ := Reach.exists_of_runFrom (step noHeaders) PlainAct (construct 100)
    [.createRead 5, .notify legacyPayload]
    (fun s => s.submitted = [[7, 8, 9]] ∧ s.txFifo.pushed = [])
    (by decide +kernel)
  obtain ⟨t, hreach, _, hall⟩ := (dta_tx_round_trip (by decide) hr).2.2 (by rw [hp.1]; decide)
  exact ⟨s, t, hr, hp.1, hp.2, hreach, hall.trans hp.1⟩

/-- The device is asked for the checksum of a packet that has no IP header, and stops. -/
theorem checksum_payload_stops :
    ∃ s, Reach (step noHeaders) DescribedAct (construct 100) s ∧
      s.step noHeaders (.tick true) = .error .assertion :=
  Reach.exists_of_run [.notify checksumPayload, .send] (by decide +kernel)

end TxPath

end Gem5.DTA
