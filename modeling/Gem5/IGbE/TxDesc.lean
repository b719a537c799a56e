import Gem5.IGbE.EthPacket

/-!
# Transmit descriptors and packet buffers

The accessors of `txd_op`. `getBuf` asserts that the descriptor carries data, and the end of
a fetch calls it unchecked; the assert stands there. The other accessors that assert the
kind of the descriptor are called where it has been checked.

A transmit packet is filled piece by piece: its buffer and its `length` are separate.
The decoder of the network headers is a parameter, `Headers`; what it changes in a
packet are single bytes in place.
-/

namespace Gem5.IGbE

structure TxDesc where
  d1 : BitVec 64
  d2 : BitVec 64
  deriving DecidableEq, Repr

namespace TxDesc

def txdCnxt : Nat := 0x0
def txdData : Nat := 0x1
def txdAdvCnxt : Nat := 0x2
def txdAdvData : Nat := 0x3

def flag (bit : Nat) (d : TxDesc) : Bool := getBits bit 1 d.d2 == 1

def isLegacy (d : TxDesc) : Bool := !d.flag 29

def getType (d : TxDesc) : Nat := getBits 20 4 d.d2

def isType (d : TxDesc) (type : Nat) : Bool := d.getType == type

def isTypes (d : TxDesc) (t1 t2 : Nat) : Bool := d.isType t1 || d.isType t2

def isAdvDesc (d : TxDesc) : Bool := !d.isLegacy && d.isTypes txdAdvData txdAdvCnxt

def isContext (d : TxDesc) : Bool := !d.isLegacy && d.isTypes txdCnxt txdAdvCnxt

def isData (d : TxDesc) : Bool := !d.isLegacy && d.isTypes txdData txdAdvData

def getBuf (d : TxDesc) : Nat := d.d1.toNat

def getLen (d : TxDesc) : Nat := if d.isLegacy then getBits 0 16 d.d2 else getBits 0 20 d.d2

def setDd (d : TxDesc) : TxDesc := { d with d2 := putBits 32 4 1 d.d2 }

def vle (d : TxDesc) : Bool := d.flag 30

def rs (d : TxDesc) : Bool := d.flag 27

def tse (d : TxDesc) : Bool :=
  if d.isTypes txdCnxt txdData then d.flag 26
  else if d.isType txdAdvData then d.flag 31
  else false

def eop (d : TxDesc) : Bool := d.flag 24

def tcp (d : TxDesc) : Bool := d.flag 24

def ixsm (d : TxDesc) : Bool := d.isData && d.flag 40

def txsm (d : TxDesc) : Bool := d.isData && d.flag 41

def mss (d : TxDesc) : Nat := getBits 48 16 d.d2

def hdrlen (d : TxDesc) : Nat :=
  if d.isAdvDesc then getBits 40 8 d.d2 + getBits 0 9 d.d1 + getBits 9 7 d.d1
  else getBits 40 8 d.d2

def getTsoLen (d : TxDesc) : Nat := getBits 46 18 d.d2

def carriesData (d : TxDesc) : Bool := d.isLegacy || d.isData

/-- The test with which `processContextDesc` starts a segmentation without a context
of its own. It reads the type bits of a legacy descriptor as well. -/
def startsTso (d : TxDesc) : Bool := d.isType txdAdvData && d.tse

end TxDesc

def ethPacketSize : Nat := 16384

/-- `data` is the part of the buffer that has been written. `origins` records the
descriptors the packet gets its bytes from; no function reads it. -/
structure EthPacketData where
  data : List UInt8
  length : Nat
  origins : List Nat
  deriving DecidableEq, Repr

namespace EthPacketData

def fresh : EthPacketData := ⟨[], 0, []⟩

def extend (origin : Nat) (p : EthPacketData) : EthPacketData :=
  { p with origins := p.origins ++ [origin] }

/-- `k` more bytes are in the buffer. -/
def grow (k : Nat) (p : EthPacketData) : EthPacketData := { p with length := p.length + k }

/-- The first `n` bytes of a buffer, zero where nothing has been written. -/
def filled (n : Nat) (data : List UInt8) : List UInt8 :=
  (data ++ List.replicate (n - data.length) 0).take n

def storeAt (off : Nat) (bytes : List UInt8) (p : EthPacketData) : EthPacketData :=
  { p with data := filled off p.data ++ bytes ++ p.data.drop (off + bytes.length) }

def contents (p : EthPacketData) : List UInt8 := filled p.length p.data

theorem filled_of_length {n : Nat} {data : List UInt8} (h : data.length = n) :
    filled n data = data := by
  subst h
  simp [filled]

theorem contents_length (p : EthPacketData) : p.contents.length = p.length := by
  simp only [contents, filled, List.length_take, List.length_append, List.length_replicate]
  omega

end EthPacketData

def patch (writes : List (Nat × UInt8)) (data : List UInt8) : List UInt8 :=
  writes.foldl (fun data w => data.set w.1 w.2) data

theorem patch_length (writes : List (Nat × UInt8)) :
    ∀ data, (patch writes data).length = data.length := by
  induction writes with
  | nil => exact fun _ => rfl
  | cons w rest ih =>
    intro data
    exact (ih _).trans (List.length_set)

/-- What the header decoder finds in a packet and the bytes the offloads write:
identification and length of an IP header, sequence number and flags of a TCP header,
length of a UDP header, and the three checksums. -/
structure Headers where
  ip : List UInt8 → Bool
  ip6 : List UInt8 → Bool
  tcp : List UInt8 → Bool
  udp : List UInt8 → Bool
  tsoIp : Nat → List UInt8 → List (Nat × UInt8)
  tsoIp6 : List UInt8 → List (Nat × UInt8)
  tsoTcp : Nat → Bool → List UInt8 → List (Nat × UInt8)
  tsoUdp : List UInt8 → List (Nat × UInt8)
  ipSum : List UInt8 → List (Nat × UInt8)
  tcpSum : List UInt8 → List (Nat × UInt8)
  udpSum : List UInt8 → List (Nat × UInt8)

def noHeaders : Headers :=
  ⟨fun _ => false, fun _ => false, fun _ => false, fun _ => false, fun _ _ => [], fun _ => [],
    fun _ _ _ => [], fun _ => [], fun _ => [], fun _ => [], fun _ => []⟩

namespace Headers

/-- The headers of one segment: packet number `pkts`, sequence offset `prevSeq`. -/
def tsoUpdate (h : Headers) (pkts prevSeq : Nat) (last : Bool) (data : List UInt8) :
    List UInt8 :=
  let data := if h.ip data then patch (h.tsoIp pkts data) data else data
  let data := if h.ip6 data then patch (h.tsoIp6 data) data else data
  let data := if h.tcp data then patch (h.tsoTcp prevSeq (!last) data) data else data
  if h.udp data then patch (h.tsoUdp data) data else data

def checksum (h : Headers) (d : TxDesc) (data : List UInt8) : Sim (List UInt8) :=
  if d.isData && (d.ixsm || d.txsm) then do
    simAssert (h.ip data || h.ip6 data)
    let data := if h.ip data && d.ixsm then patch (h.ipSum data) data else data
    if d.txsm then
      if h.tcp data then pure (patch (h.tcpSum data) data)
      else if h.udp data then pure (patch (h.udpSum data) data)
      else .error (.panic "Told to checksum, but don't know how\n")
    else pure data
  else pure data

theorem checksum_length {h : Headers} {d : TxDesc} {data out : List UInt8}
    (ho : h.checksum d data = .ok out) : out.length = data.length := by
  unfold checksum at ho
  split at ho
  · obtain ⟨_, _, ho⟩ := bind_eq_ok.mp ho
    have hip : (if h.ip data && d.ixsm then patch (h.ipSum data) data else data).length =
        data.length := by
      split
      · exact patch_length _ _
      · rfl
    dsimp only at ho
    generalize (if h.ip data && d.ixsm then patch (h.ipSum data) data else data) = x at ho hip
    split at ho
    · split at ho
      · cases ho
        exact (patch_length _ _).trans hip
      · split at ho
        · cases ho
          exact (patch_length _ _).trans hip
        · cases ho
    · cases ho
      exact hip
  · cases ho
    rfl

end Headers

end Gem5.IGbE
