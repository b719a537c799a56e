import Gem5.IGbE.DescCacheRing
import Gem5.IGbE.EthPacket

/-!
# The receive descriptor cache

`IGbE::RxDescCache` is one packet engine and `IGbE::RxDescCacheGlobal` the queue
that owns the engines. A descriptor is two little-endian words; the advanced
write-back layout overlays the read layout as in the source's union.
-/

namespace Gem5.IGbE

inductive RxDescType where
  | legacy
  | advOneBuf
  | advSplitA
  | unimplemented (code : Nat)
  deriving DecidableEq, Repr

def RxDescType.implemented : RxDescType → Bool
  | .unimplemented _ => false
  | _ => true

structure RxEnv where
  desctype : RxDescType
  lpe : Bool
  bufLen : Nat
  hdrLen : Nat
  descSize : Nat
  secrc : Bool
  pcss : Nat
  ipofld : Bool
  tuofld : Bool
  pcsd : Bool
  inet : EthPacket → Inet

structure RxDesc where
  w0 : BitVec 64
  w1 : BitVec 64
  deriving DecidableEq, Repr

namespace RxDesc

def advLens (headerLen sph pktLen : Nat) (d : RxDesc) : RxDesc where
  w0 := putBits 31 1 sph (putBits 21 10 headerLen d.w0)
  w1 := putBits 32 16 pktLen d.w1

def legacyComplete (len status errors : Nat) (d : RxDesc) : RxDesc :=
  { d with
    w1 := putBits 48 16 0 (putBits 40 8 errors (putBits 32 8 status (putBits 0 16 len d.w1))) }

def advComplete (pktType : Nat) (pcsd : Bool) (ipId csum status errors : Nat) (d : RxDesc) :
    RxDesc where
  w0 :=
    let w := putBits 4 12 pktType (putBits 0 4 0 d.w0)
    if pcsd then putBits 32 32 0 w else putBits 48 16 csum (putBits 32 16 ipId w)
  w1 := putBits 48 16 0 (putBits 20 12 errors (putBits 0 20 status d.w1))

end RxDesc

/-- What `pktComplete` collects before it writes the descriptor. -/
structure RxResult where
  status : Nat
  err : Nat
  extErr : Nat
  csum : Nat
  ptype : Nat
  ipId : Nat

namespace RxResult

def rxdsDD : Nat := 0x001
def rxdsEOP : Nat := 0x002
def rxdsUDPCS : Nat := 0x010
def rxdsTCPCS : Nat := 0x020
def rxdsIPCS : Nat := 0x040
def rxdeIPE : Nat := 0x40
def rxdeTCPE : Nat := 0x20
def rxdeeIPE : Nat := 0x800
def rxdeeTCPE : Nat := 0x400
def rxdpIPV4 : Nat := 0x001
def rxdpIPV6 : Nat := 0x004
def rxdpTCP : Nat := 0x010
def rxdpUDP : Nat := 0x020

def check (status ptype err extErr : Nat) (sum : BitVec 16) (r : RxResult) : RxResult :=
  { r with
    status := r.status ||| status
    ptype := r.ptype ||| ptype
    csum := sum.toNat
    err := if sum = 0 then r.err else r.err ||| err
    extErr := if sum = 0 then r.extErr else r.extErr ||| extErr }

def ofPacket (env : RxEnv) (packet : EthPacket) (bytesCopied : Nat) : RxResult :=
  let inet := env.inet packet
  let r : RxResult :=
    ⟨if bytesCopied = packet.length then rxdsDD ||| rxdsEOP else rxdsDD, 0, 0, 0, 0, 0⟩
  if inet.ip.isNone && !inet.ip6 then r
  else
    let r := match inet.ip with
      | some (id, sum) =>
        let r := { r with ptype := r.ptype ||| rxdpIPV4, ipId := id.toNat }
        let r := if inet.ip6 then { r with ptype := r.ptype ||| rxdpIPV6 } else r
        if env.ipofld then check rxdsIPCS 0 rxdeIPE rxdeeIPE sum r else r
      | none => if inet.ip6 then { r with ptype := r.ptype ||| rxdpIPV6 } else r
    let r := match inet.tcp with
      | some sum => if env.tuofld then check rxdsTCPCS rxdpTCP rxdeTCPE rxdeeTCPE sum r else r
      | none => r
    match inet.udp with
    | some sum => if env.tuofld then check rxdsUDPCS rxdpUDP rxdeTCPE rxdeeTCPE sum r else r
    | none => r

end RxResult

/-- One packet engine. `pending` counts the DMA writes whose event has not fired
yet: one, or two when header and data are split. -/
structure RxDescCache where
  pktPtr : Option EthPacket
  pktWaiting : Bool
  correspondingDesc : Bool
  splitCount : Nat
  bytesCopied : Nat
  split : Bool
  pending : Nat
  deriving DecidableEq, Repr

namespace RxDescCache

def idle : RxDescCache := ⟨none, false, false, 0, 0, false, 0⟩

def bufferLen (env : RxEnv) : Nat := if env.lpe then env.bufLen else env.descSize

def headerLen (env : RxEnv) : Nat := if env.lpe then env.hdrLen else 0

/-- A difference of two `unsigned` values. -/
def unsignedSub (a b : Nat) : Nat := (a + 2 ^ 32 - b) % 2 ^ 32

def issue (copied : Nat) (split : Bool) (eng : RxDescCache) : RxDescCache :=
  { eng with bytesCopied := copied, split := split, pending := if split then 2 else 1 }

def writePacket (env : RxEnv) (packet : EthPacket) (pktOffset : Nat) (desc : RxDesc)
    (eng : RxDescCache) : Sim (RxDescCache × RxDesc) := do
  simAssert (!eng.correspondingDesc)
  let eng := { eng with correspondingDesc := true, pktPtr := some packet, pktWaiting := true }
  match env.desctype with
  | .legacy =>
    simAssert (pktOffset == 0)
    simAssert (packet.length < env.descSize)
    pure (eng.issue packet.length false, desc)
  | .advOneBuf =>
    simAssert (pktOffset == 0)
    simAssert (packet.length < bufferLen env)
    pure (eng.issue packet.length false, desc.advLens 0 0 packet.length)
  | .advSplitA =>
    let splitPoint := (env.inet packet).splitPoint
    if packet.length ≤ headerLen env then
      simAssert (pktOffset == 0)
      pure (eng.issue packet.length false, desc.advLens packet.length 0 0)
    else if splitPoint ≠ 0 then
      if pktOffset ≠ 0 then
        let n := min (unsignedSub packet.length pktOffset) (bufferLen env)
        pure (eng.issue (eng.bytesCopied + n) false, desc.advLens 0 0 n)
      else
        let n := min (unsignedSub packet.length splitPoint) (bufferLen env)
        pure (eng.issue (eng.bytesCopied + n + splitPoint) true, desc.advLens splitPoint 1 n)
    else .error (.panic ("Header split not fitting within header buffer or " ++
      "undecodable packet not fitting in header unsupported\n"))
  | .unimplemented _ => .error (.panic "Unimplemnted RX receive buffer type: %d\n")

def accepts (env : RxEnv) (packet : EthPacket) : Bool :=
  match env.desctype with
  | .legacy => packet.length < env.descSize
  | .advOneBuf => packet.length < bufferLen env
  | .advSplitA => packet.length ≤ headerLen env ||
      (0 < (env.inet packet).splitPoint && (env.inet packet).splitPoint ≤ packet.length &&
        packet.length < 2 ^ 32 &&
        packet.length - (env.inet packet).splitPoint ≤ bufferLen env)
  | .unimplemented _ => false

def pktComplete (env : RxEnv) (desc : RxDesc) (eng : RxDescCache) :
    Sim (RxDescCache × RxDesc) := do
  simAssert eng.correspondingDesc
  let packet ← simSome eng.pktPtr
  simAssert (env.pcss == 0)
  simAssert (eng.bytesCopied ≤ packet.length)
  let r := RxResult.ofPacket env packet eng.bytesCopied
  let eng := { eng with pktPtr := none, pktWaiting := false, correspondingDesc := false }
  match env.desctype with
  | .legacy =>
    pure (eng, desc.legacyComplete (packet.length + if env.secrc then 0 else 4) r.status r.err)
  | .advSplitA | .advOneBuf =>
    pure (eng, desc.advComplete r.ptype env.pcsd r.ipId r.csum r.status r.extErr)
  | .unimplemented _ => .error (.panic "Unimplemnted RX receive buffer type %d\n")

/-- The event of a DMA write fires: `pktEvent`, or one of the two events of a split
packet. The second component tells whether `pktComplete` ran. -/
def dmaEvent (env : RxEnv) (desc : RxDesc) (eng : RxDescCache) :
    Sim (RxDescCache × RxDesc × Bool) := do
  let eng := { eng with pending := eng.pending - 1 }
  if eng.split then
    let eng := { eng with splitCount := eng.splitCount + 1 }
    simAssert (eng.splitCount ≤ 2)
    if eng.splitCount ≠ 2 then pure (eng, desc, false)
    else
      let (eng, desc) ← pktComplete env desc { eng with splitCount := 0 }
      pure (eng, desc, true)
  else
    let (eng, desc) ← pktComplete env desc eng
    pure (eng, desc, true)

end RxDescCache

structure RxDescCacheGlobal extends DescCacheGlobal RxDesc EthPacket where
  dmaEngineArray : Nat → RxDescCache
  processingPktOffsetArray : Nat → Nat
  processingPktDoneArray : Nat → Bool

namespace RxDescCacheGlobal

def construct (descBase descLen : Nat) : RxDescCacheGlobal where
  toDescCacheGlobal := .construct RxDesc EthPacket descBase descLen
  dmaEngineArray := fun _ => .idle
  processingPktOffsetArray := fun _ => 0
  processingPktDoneArray := fun _ => false

/-- The five conditions `hasFreeDMAEngine` and `getFreeDMAEngine` test. -/
def isFree (s : RxDescCacheGlobal) (i : Nat) : Bool :=
  !(s.dmaEngineArray i).pktWaiting && !s.processingPktDoneArray i &&
    (s.processingCache i).desc.isNone && s.processingPktOffsetArray i == 0 &&
    (s.processingPktArray i).isNone

def getFreeDMAEngine (cfg : Config) (s : RxDescCacheGlobal) : Option Nat :=
  (List.range cfg.numDMAEngines).find? s.isFree

def hasFreeDMAEngine (cfg : Config) (s : RxDescCacheGlobal) : Bool :=
  (s.getFreeDMAEngine cfg).isSome

def hasReadyEthPacket (cfg : Config) (s : RxDescCacheGlobal) : Option Nat :=
  (List.range cfg.numDMAEngines).find? s.processingPktDoneArray

def setEngine (i : Nat) (eng : RxDescCache) (body : RxDesc) (s : RxDescCacheGlobal) :
    RxDescCacheGlobal :=
  { s with
    toDescCacheGlobal := s.setBody i body
    dmaEngineArray := Function.update s.dmaEngineArray i eng }

/-- Packet engine `i` has taken packet and descriptor and is now `eng`. -/
def assign (i : Nat) (packet : EthPacket) (d : Desc RxDesc) (eng : RxDescCache) (body : RxDesc)
    (s : RxDescCacheGlobal) : RxDescCacheGlobal :=
  { s with
    toDescCacheGlobal := ((s.beginProcessing i d).setPkt i (some packet)).setBody i body
    dmaEngineArray := Function.update s.dmaEngineArray i eng
    processingPktOffsetArray := Function.update s.processingPktOffsetArray i eng.bytesCopied }

def writePacketGlobal (cfg : Config) (env : RxEnv) (packet : EthPacket) (s : RxDescCacheGlobal) :
    Sim (Bool × RxDescCacheGlobal) :=
  match s.unusedCache with
  | [] => pure (false, s)
  | d :: _ => do
    simAssert (s.hasFreeDMAEngine cfg)
    let i ← simSome (s.getFreeDMAEngine cfg)
    simAssert (s.processingPktArray i).isNone
    simAssert (s.processingPktOffsetArray i == 0)
    simAssert (!s.processingPktDoneArray i)
    simAssert (s.processingCache i).desc.isNone
    let (eng, body) ← (s.dmaEngineArray i).writePacket env packet 0 d.body
    pure (true, s.assign i packet d eng body)

/-- The packet of engine `i` is complete: its bookkeeping is cleared. -/
def packetDone (i : Nat) (s : RxDescCacheGlobal) : RxDescCacheGlobal :=
  { s with
    toDescCacheGlobal := (s.markProcessed i).setPkt i none
    dmaEngineArray := Function.update s.dmaEngineArray i
      { s.dmaEngineArray i with bytesCopied := 0 }
    processingPktOffsetArray := Function.update s.processingPktOffsetArray i 0
    processingPktDoneArray := Function.update s.processingPktDoneArray i true }

def manageUsedCache (cfg : Config) (s : RxDescCacheGlobal) : Sim RxDescCacheGlobal := do
  let base ← s.toDescCacheGlobal.manageUsedCache cfg
  pure { s with toDescCacheGlobal := base }

def onDMAComplete (cfg : Config) (i : Nat) (s : RxDescCacheGlobal) : Sim RxDescCacheGlobal := do
  simAssert (i < cfg.numDMAEngines)
  let packet ← simSome (s.processingPktArray i)
  simAssert (0 < (s.dmaEngineArray i).bytesCopied)
  -- a packet that needs a second descriptor is not implemented
  simAssert ((s.dmaEngineArray i).bytesCopied == packet.length)
  let s := s.packetDone i
  simAssert (s.processingCache i).desc.isSome
  manageUsedCache cfg s

/-- A DMA write of packet engine `i` ends. The descriptor of an engine whose slot
has been cleared is gone; its contents no longer matter. -/
def dmaEvent (cfg : Config) (env : RxEnv) (i : Nat) (s : RxDescCacheGlobal) :
    Sim RxDescCacheGlobal := do
  let body := ((s.processingCache i).desc.map Desc.body).getD ⟨0, 0⟩
  let (eng, body, complete) ← (s.dmaEngineArray i).dmaEvent env body
  let s := s.setEngine i eng body
  if complete then onDMAComplete cfg i s else pure s

def clearDoneEthPacket (i : Nat) (s : RxDescCacheGlobal) : Sim RxDescCacheGlobal := do
  simAssert (s.processingPktArray i).isNone
  simAssert (s.processingPktOffsetArray i == 0)
  pure { s with processingPktDoneArray := Function.update s.processingPktDoneArray i false }

end RxDescCacheGlobal

end Gem5.IGbE
