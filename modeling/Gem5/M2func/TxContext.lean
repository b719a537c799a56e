import Gem5.IGbE.PacketFifo
import Gem5.M2func.RxContext

/-!
# The M2func transmit context

`IGbE::TxM2funcContext` of one queue. The host writes packets of at most one flit; the
first one of an Ethernet packet starts with eight bytes of descriptor, `d2` of a transmit
descriptor. The state machine collects the packet in `txPacketArray[queueID]` and pushes
it to `txFifo`. The `bitmask` has one bit for every packet collected. What a context
descriptor sets besides `tsoEnabled` is never read, and is left out.
-/

namespace Gem5.IGbE

def ofLittleEndian : List UInt8 → Nat
  | [] => 0
  | b :: rest => b.toNat + 256 * ofLittleEndian rest

theorem littleEndian_succ (n x : Nat) :
    littleEndian (n + 1) x = UInt8.ofNat x :: littleEndian n (x / 256) := by
  unfold littleEndian
  rw [List.range_succ_eq_map, List.map_cons, List.map_map]
  congr 1
  · simp
  · apply List.map_congr_left
    intro i _
    simp only [Function.comp_apply, Nat.succ_eq_add_one]
    rw [Nat.pow_succ', Nat.div_div_eq_div_mul]

theorem ofLittleEndian_littleEndian (n : Nat) :
    ∀ x, ofLittleEndian (littleEndian n x) = x % 256 ^ n := by
  induction n with
  | zero =>
    intro x
    simp [littleEndian, ofLittleEndian, Nat.mod_one]
  | succ n ih =>
    intro x
    rw [littleEndian_succ, ofLittleEndian, ih]
    exact (Nat.mod_mul.symm.trans (congrArg (x % ·) Nat.pow_succ'.symm))

/-- `cxlMemTxdOp`: the descriptor is a number. The bits are those of `d2`, the length of
a data descriptor has two bits less. -/
structure CxlTxd where
  d : BitVec 64
  deriving DecidableEq, Repr

namespace CxlTxd

def toTxDesc (x : CxlTxd) : TxDesc := ⟨0, x.d⟩

def cxlIsLegacy (x : CxlTxd) : Bool := x.toTxDesc.isLegacy

def cxlIsContext (x : CxlTxd) : Bool := x.toTxDesc.isContext

def cxlIsType (x : CxlTxd) (type : Nat) : Bool := x.toTxDesc.isType type

def cxlTse (x : CxlTxd) : Bool := x.toTxDesc.tse

def cxlIxsm (x : CxlTxd) : Bool := x.toTxDesc.ixsm

def cxlTxsm (x : CxlTxd) : Bool := x.toTxDesc.txsm

def cxlGetLen (x : CxlTxd) : Nat :=
  if x.cxlIsLegacy then getBits 0 16 x.d else getBits 0 18 x.d

end CxlTxd

def txDescOf (data : List UInt8) : CxlTxd := ⟨BitVec.ofNat 64 (ofLittleEndian (data.take 8))⟩

namespace Headers

/-- The checksums of `processTxPacket`. -/
def txM2funcChecksum (h : Headers) (ixsm txsm : Bool) (data : List UInt8) : Sim (List UInt8) :=
  if ixsm || txsm then do
    simAssert (h.ip data || h.ip6 data)
    let data := if h.ip data && ixsm then patch (h.ipSum data) data else data
    if txsm then
      if h.tcp data then pure (patch (h.tcpSum data) data)
      else if h.udp data then pure (patch (h.udpSum data) data)
      else .error (.panic "TXM2func: Told to checksum, but don't know how\n")
    else pure data
  else pure data

end Headers

structure TxM2funcContext where
  pktDone : Bool
  ethPktSize : Nat
  txDesc : BitVec 64
  receivedPktSize : Nat
  tsoEnabled : Bool
  m2funcTxFifo : List (List UInt8)
  txPacket : Option EthPacketData
  bitmask : List Bool

namespace TxM2funcContext

def construct : TxM2funcContext where
  pktDone := false
  ethPktSize := 0
  txDesc := 0
  receivedPktSize := 0
  tsoEnabled := false
  m2funcTxFifo := []
  txPacket := none
  bitmask := []

def descSize : Nat := 8

def processTxPacket (h : Headers) (chunk : List UInt8) (ixsm txsm : Bool) (p : EthPacketData)
    (s : TxM2funcContext) : Sim EthPacketData :=
  if p.length + chunk.length ≤ ethPacketSize then
    if s.tsoEnabled then .error (.panic "TSO processing is not implemented yet\n")
    else do
      let data ← h.txM2funcChecksum ixsm txsm (p.contents ++ chunk)
      pure { p with data := data, length := p.length + chunk.length }
  else .error .outOfBounds

def updateBitmask (success : Bool) (s : TxM2funcContext) : TxM2funcContext :=
  { s with bitmask := s.bitmask ++ [success] }

def resetContext (s : TxM2funcContext) : TxM2funcContext :=
  { s with txDesc := 0, ethPktSize := 0, receivedPktSize := 0, pktDone := false }

/-- The front flit has been used up and `n` bytes of it went to packet `p`. -/
def received (n : Nat) (p : EthPacketData) (s : TxM2funcContext) : TxM2funcContext :=
  let s := { s with
    txPacket := some p
    m2funcTxFifo := s.m2funcTxFifo.tail
    receivedPktSize := s.receivedPktSize + n }
  if s.receivedPktSize = s.ethPktSize then updateBitmask true { s with pktDone := true } else s

/-- The packet is complete: it goes to `txFifo` when it is the queue's turn. -/
def pushPacket (candidate : Bool) (p : EthPacketData) (s : TxM2funcContext) (f : PacketFifo) :
    Sim (TxM2funcContext × PacketFifo) := do
  simAssert (s.ethPktSize == s.receivedPktSize)
  if candidate then
    let (success, f) ← f.push p
    simAssert success
    pure ({ s.resetContext with txPacket := none }, f)
  else pure (s, f)

def continuePacket (h : Headers) (p : EthPacketData) (data : List UInt8) (s : TxM2funcContext) :
    Sim TxM2funcContext := do
  simAssert (decide (0 < s.ethPktSize))
  simAssert (decide (0 < s.receivedPktSize))
  simAssert (!s.pktDone)
  simAssert (s.txDesc != 0)
  simAssert (s.ethPktSize != s.receivedPktSize)
  let left := (s.ethPktSize + 2 ^ 64 - s.receivedPktSize) % 2 ^ 64
  let n := if left < data.length then left else data.length
  let p ← s.processTxPacket h (data.take n) (CxlTxd.cxlIxsm ⟨s.txDesc⟩)
    (CxlTxd.cxlTxsm ⟨s.txDesc⟩) p
  pure (s.received n p)

/-- A context descriptor. The descriptor stays in `txDesc`. -/
def contextDesc (x : CxlTxd) (data : List UInt8) (s : TxM2funcContext) : Sim TxM2funcContext := do
  simAssert (decide (16 ≤ data.length))
  pure { s with
    m2funcTxFifo := s.m2funcTxFifo.tail
    tsoEnabled := s.tsoEnabled || (x.cxlIsType TxDesc.txdCnxt && x.cxlTse) }

/-- The first flit of a packet of `ethPktSize` bytes. -/
def firstPart (h : Headers) (x : CxlTxd) (data : List UInt8) (s : TxM2funcContext)
    (f : PacketFifo) : Sim (TxM2funcContext × PacketFifo) :=
  if s.tsoEnabled then .error (.panic "TSO is not supported yet\n")
  else do
    let f ← f.reserve (s.ethPktSize % 2 ^ 32)
    let s := { s with receivedPktSize := 0, pktDone := false }
    let n := min (data.length - descSize) s.ethPktSize
    let p ← s.processTxPacket h ((data.drop descSize).take n) x.cxlIxsm x.cxlTxsm .fresh
    pure (s.received n p, f)

def startPacket (h : Headers) (data : List UInt8) (s : TxM2funcContext) (f : PacketFifo) :
    Sim (TxM2funcContext × PacketFifo) := do
  simAssert (decide (descSize < data.length))
  simAssert (s.txDesc == 0)
  simAssert (s.ethPktSize == 0)
  simAssert (s.receivedPktSize == 0)
  simAssert (!s.pktDone)
  let x := txDescOf data
  let s := { s with txDesc := x.d }
  if x.cxlIsContext then
    let s ← s.contextDesc x data
    pure (s, f)
  else
    let s := { s with ethPktSize := x.cxlGetLen }
    if 0 < s.ethPktSize ∧ s.ethPktSize < f.availUnsigned 64 then s.firstPart h x data f
    else if 0 < s.ethPktSize then pure (s.resetContext, f)
    else pure (s, f)

def txM2funcStateMachine (h : Headers) (candidate : Bool) (s : TxM2funcContext)
    (f : PacketFifo) : Sim (TxM2funcContext × PacketFifo) :=
  match s.txPacket with
  | some p =>
    if s.pktDone && s.receivedPktSize != 0 then s.pushPacket candidate p f
    else match s.m2funcTxFifo with
      | [] => pure (s, f)
      | data :: _ => do
        let s ← s.continuePacket h p data
        pure (s, f)
  | none =>
    match s.m2funcTxFifo with
    | [] => pure (s, f)
    | data :: _ => s.startPacket h data f

def writeM2funcPacket (flitSize : Nat) (data : List UInt8) (s : TxM2funcContext) :
    Sim TxM2funcContext := do
  simAssert (decide (data.length ≤ flitSize))
  pure { s with m2funcTxFifo := s.m2funcTxFifo ++ [data] }

end TxM2funcContext

end Gem5.IGbE
