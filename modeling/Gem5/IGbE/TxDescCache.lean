import Gem5.IGbE.DescCacheRing
import Gem5.IGbE.TxDesc

/-!
# The transmit descriptor cache

`IGbE::TxDescCache` is one packet engine, `IGbE::TxDescCacheGlobal` the queue that
owns the engines, and `txStateMachine` what one tick does to a queue. Statistics,
interrupts and the timers a packet schedules are left out; `sent` records what has
been pushed to `txFifo`.
-/

namespace Gem5.IGbE

structure TxEnv where
  mem : Nat → UInt8
  pciToDma : Nat → Nat
  headers : Headers
  wthresh : Nat
  gran : Bool
  cacheBlockSize : Nat

namespace TxEnv

def read (env : TxEnv) (addr size : Nat) : List UInt8 :=
  (List.range size).map fun i => env.mem (addr + i)

def blockMask (env : TxEnv) : BitVec 64 := BitVec.ofNat 64 ((env.cacheBlockSize - 1) >>> 4)

end TxEnv

/-- What a tick finds outside the queue: `TCTL.EN`, whether it is this queue's turn,
the free bytes of `txFifo` and whether a push succeeds. -/
structure TxTick where
  en : Bool
  candidate : Bool
  avail : Nat
  pushOk : Bool
  deriving DecidableEq, Repr

/-- What the state machine does with `txFifo`. -/
structure TxFifo (φ : Type) where
  avail : φ → Nat
  reserve : Nat → φ → Sim φ
  push : EthPacketData → φ → Sim (Bool × φ)

def TxTick.txFifo (k : TxTick) : TxFifo Unit :=
  ⟨fun _ => k.avail, fun _ _ => pure (), fun _ _ => pure (k.pushOk, ())⟩

/-- One packet engine. `pktPtr` tells whether a packet is set, which is as long as its
DMA read is under way; the packet itself is in the queue's array. -/
structure TxDescCache where
  pktPtr : Bool
  pktWaiting : Bool
  pktDone : Bool
  dmaAddr : Nat
  dmaOff : Nat
  dmaSize : Nat
  deriving DecidableEq, Repr

namespace TxDescCache

def idle : TxDescCache := ⟨false, false, false, 0, 0, 0⟩

/-- The DMA read of `size` bytes to offset `off` of the packet is under way. -/
def reading (off addr size : Nat) (eng : TxDescCache) : TxDescCache :=
  { eng with
    pktPtr := true, pktWaiting := true, dmaAddr := addr, dmaOff := off, dmaSize := size }

def getPacketData (off addr size : Nat) (eng : TxDescCache) : Sim TxDescCache := do
  simAssert (!eng.pktPtr)
  simAssert (!eng.pktWaiting)
  if off + size ≤ ethPacketSize then pure (eng.reading off addr size) else .error .outOfBounds

end TxDescCache

structure TxDescCacheGlobal extends DescCacheGlobal TxDesc EthPacketData where
  dmaEngineArray : Nat → TxDescCache
  roundRobinIdx : Nat
  isTcp : Bool
  pktHdrWaiting : Bool
  pktMultiDesc : Bool
  useTso : Bool
  tsoHeaderLen : Nat
  tsoMss : Nat
  tsoTotalLen : Nat
  tsoUsedLen : Nat
  tsoPrevSeq : Nat
  tsoLoadedHeader : Bool
  tsoPktHasHeader : Bool
  tsoHeader : List UInt8
  tsoHeaderAddr : Nat
  tsoDescBytesUsed : Nat
  tsoCopyBytes : Nat
  tsoPkts : Nat
  tsoDMAEngineIdx : Option Nat
  sent : List EthPacketData

namespace TxDescCacheGlobal

def construct (descBase descLen : Nat) : TxDescCacheGlobal where
  toDescCacheGlobal := .construct TxDesc EthPacketData descBase descLen
  dmaEngineArray := fun _ => .idle
  roundRobinIdx := 0
  isTcp := false
  pktHdrWaiting := false
  pktMultiDesc := false
  useTso := false
  tsoHeaderLen := 0
  tsoMss := 0
  tsoTotalLen := 0
  tsoUsedLen := 0
  tsoPrevSeq := 0
  tsoLoadedHeader := false
  tsoPktHasHeader := false
  tsoHeader := []
  tsoHeaderAddr := 0
  tsoDescBytesUsed := 0
  tsoCopyBytes := 0
  tsoPkts := 0
  tsoDMAEngineIdx := none
  sent := []

/-- A difference of two `Addr` values. -/
def addrSub (a b : Nat) : Nat := (a + 2 ^ 64 - b) % 2 ^ 64

def onBase (f : DescCacheGlobal TxDesc EthPacketData →
    Sim (DescCacheGlobal TxDesc EthPacketData)) (s : TxDescCacheGlobal) :
    Sim TxDescCacheGlobal := do
  let base ← f s.toDescCacheGlobal
  pure { s with toDescCacheGlobal := base }

def startTso (total : Nat) (s : TxDescCacheGlobal) : TxDescCacheGlobal :=
  { s with
    useTso := true
    tsoTotalLen := total
    tsoLoadedHeader := false
    tsoDescBytesUsed := 0
    tsoUsedLen := 0
    tsoPrevSeq := 0
    tsoPktHasHeader := false
    tsoPkts := 0 }

def takeContext (d : Desc TxDesc) (s : TxDescCacheGlobal) : TxDescCacheGlobal :=
  let s := { s with isTcp := d.body.tcp, tsoHeaderLen := d.body.hdrlen, tsoMss := d.body.mss }
  let s := if d.body.isType TxDesc.txdCnxt && d.body.tse then
      { s.startTso d.body.getLen with tsoCopyBytes := 0 }
    else s
  { s with toDescCacheGlobal := s.useDirectly { d with body := d.body.setDd } }

/-- The loop of `processContextDesc` over the descriptors at the front. -/
def takeContexts : List (Desc TxDesc) → TxDescCacheGlobal → TxDescCacheGlobal
  | [], s => s
  | d :: rest, s =>
    if !s.useTso && d.body.isContext then takeContexts rest (s.takeContext d) else s

def requestHeader (env : TxEnv) (d : TxDesc) (s : TxDescCacheGlobal) : Sim TxDescCacheGlobal := do
  simAssert (d.isData && s.tsoHeaderLen ≤ d.getLen)
  simAssert (s.tsoHeaderLen ≤ 256)
  pure { s with pktHdrWaiting := true, tsoHeaderAddr := env.pciToDma d.getBuf }

def processContextDesc (env : TxEnv) (s : TxDescCacheGlobal) : Sim TxDescCacheGlobal :=
  let s := takeContexts s.unusedCache s
  match s.unusedCache with
  | [] => pure s
  | d :: _ =>
    let s := if !s.useTso && d.body.startsTso then s.startTso d.body.getTsoLen else s
    if s.useTso && !s.tsoLoadedHeader then s.requestHeader env d.body else pure s

def headerComplete (env : TxEnv) (s : TxDescCacheGlobal) : Sim TxDescCacheGlobal := do
  let s := { s with
    pktHdrWaiting := false, tsoHeader := env.read s.tsoHeaderAddr s.tsoHeaderLen }
  let d ← simSome s.unusedCache.head?
  if d.body.getLen = s.tsoHeaderLen then
    pure { s with
      toDescCacheGlobal := s.useDirectly d, tsoDescBytesUsed := 0, tsoLoadedHeader := true }
  else pure { s with tsoDescBytesUsed := s.tsoHeaderLen, tsoLoadedHeader := true }

/-- `tsoCopyBytes` for the next descriptor. -/
def copyBytes (d : TxDesc) (s : TxDescCacheGlobal) : Sim Nat := do
  let left := addrSub d.getLen s.tsoDescBytesUsed
  if s.tsoPktHasHeader then
    let e ← simSome s.tsoDMAEngineIdx
    let p ← simSome (s.processingPktArray e)
    pure (min (addrSub (s.tsoMss + s.tsoHeaderLen) p.length) left)
  else pure (min s.tsoMss left)

def getPacketSize (s : TxDescCacheGlobal) : Sim (Nat × TxDescCacheGlobal) :=
  match s.unusedCache with
  | [] => pure (0, s)
  | d :: _ => do
    simAssert (!s.useTso || s.tsoLoadedHeader)
    if s.useTso then
      let k ← s.copyBytes d.body
      pure ((k + if s.tsoPktHasHeader then 0 else s.tsoHeaderLen) % 2 ^ 32,
        { s with tsoCopyBytes := k })
    else pure (d.body.getLen, s)

def isFree (s : TxDescCacheGlobal) (i : Nat) : Bool :=
  !(s.dmaEngineArray i).pktWaiting && !(s.dmaEngineArray i).pktDone &&
    (s.processingCache i).desc.isNone

def getFreeDMAEngine (cfg : Config) (s : TxDescCacheGlobal) : Option Nat :=
  (List.range cfg.numDMAEngines).find? s.isFree

def hasFreeDMAEngine (cfg : Config) (s : TxDescCacheGlobal) : Sim Bool :=
  match s.useTso, s.tsoDMAEngineIdx with
  | true, some e => do
    simAssert (e < cfg.numDMAEngines)
    pure (!(s.dmaEngineArray e).pktWaiting && (s.processingCache e).desc.isNone)
  | _, _ => pure (s.getFreeDMAEngine cfg).isSome

def setEngine (i : Nat) (eng : TxDescCache) (s : TxDescCacheGlobal) : TxDescCacheGlobal :=
  { s with dmaEngineArray := Function.update s.dmaEngineArray i eng }

/-- Engine `i` works on descriptor `d` for packet `p`. -/
def assign (i : Nat) (d : Desc TxDesc) (p : EthPacketData) (eng : TxDescCache)
    (s : TxDescCacheGlobal) : TxDescCacheGlobal :=
  { s with
    toDescCacheGlobal := (s.beginProcessing i d).setPkt i (some (p.extend d.origin))
    dmaEngineArray := Function.update s.dmaEngineArray i eng }

def freshEngine (cfg : Config) (s : TxDescCacheGlobal) : Sim Nat := do
  simAssert (← s.hasFreeDMAEngine cfg)
  let i ← simSome (s.getFreeDMAEngine cfg)
  simAssert (s.processingPktArray i).isNone
  pure i

def getPlainData (cfg : Config) (env : TxEnv) (d : Desc TxDesc) (s : TxDescCacheGlobal) :
    Sim TxDescCacheGlobal := do
  let i ← s.freshEngine cfg
  simAssert (s.processingCache i).desc.isNone
  let eng ← (s.dmaEngineArray i).getPacketData 0 (env.pciToDma d.body.getBuf) d.body.getLen
  pure (s.assign i d .fresh eng)

def tsoPacket (cfg : Config) (s : TxDescCacheGlobal) : Sim (Nat × EthPacketData) :=
  match s.tsoDMAEngineIdx with
  | none => do
    let e ← s.freshEngine cfg
    pure (e, .fresh)
  | some e => do
    let p ← simSome (s.processingPktArray e)
    pure (e, p)

def loadHeader (p : EthPacketData) (s : TxDescCacheGlobal) : EthPacketData :=
  if s.tsoPktHasHeader then p
  else { p.storeAt 0 (s.tsoHeader.take s.tsoHeaderLen) with length := p.length + s.tsoHeaderLen }

def getTsoData (cfg : Config) (env : TxEnv) (d : Desc TxDesc) (s : TxDescCacheGlobal) :
    Sim TxDescCacheGlobal := do
  let (e, p) ← s.tsoPacket cfg
  simAssert s.tsoLoadedHeader
  let p := s.loadHeader p
  simAssert (s.processingCache e).desc.isNone
  simAssert (0 < s.tsoCopyBytes)
  let eng ← (s.dmaEngineArray e).getPacketData p.length
    (env.pciToDma d.body.getBuf + s.tsoDescBytesUsed) s.tsoCopyBytes
  simAssert (s.tsoDescBytesUsed + s.tsoCopyBytes ≤ d.body.getLen)
  pure { s.assign e d p eng with
    tsoDMAEngineIdx := some e
    tsoPktHasHeader := true
    tsoDescBytesUsed := s.tsoDescBytesUsed + s.tsoCopyBytes }

def getPacketDataGlobal (cfg : Config) (env : TxEnv) (s : TxDescCacheGlobal) :
    Sim TxDescCacheGlobal := do
  let d ← simSome s.unusedCache.head?
  simAssert (d.body.carriesData && d.body.getLen != 0)
  if s.useTso then s.getTsoData cfg env d else s.getPlainData cfg env d

def manageUsedCache (cfg : Config) (s : TxDescCacheGlobal) : Sim TxDescCacheGlobal :=
  s.onBase (DescCacheGlobal.manageUsedCache cfg)

/-- The descriptor of engine `e` is done. -/
def retire (cfg : Config) (e : Nat) (s : TxDescCacheGlobal) : Sim TxDescCacheGlobal := do
  let s ← manageUsedCache cfg { s with toDescCacheGlobal := s.markProcessed e }
  pure { s with tsoDescBytesUsed := 0 }

def engineDone (e : Nat) (s : TxDescCacheGlobal) : TxDescCacheGlobal :=
  s.setEngine e { s.dmaEngineArray e with pktDone := true, pktWaiting := false }

/-- The bytes of the ended DMA are in the buffer of packet `p` and are counted. -/
def received (e : Nat) (d : Desc TxDesc) (p : EthPacketData) (s : TxDescCacheGlobal) :
    EthPacketData × TxDescCacheGlobal :=
  let k := if s.useTso then s.tsoCopyBytes else d.body.getLen
  let p := p.grow k
  let s := { s with toDescCacheGlobal := s.setPkt e (some p) }
  (p, if s.useTso then { s with tsoUsedLen := s.tsoUsedLen + k } else s)

def moreToCome (d : TxDesc) (p : EthPacketData) (s : TxDescCacheGlobal) : Bool :=
  (!d.eop && !s.useTso) ||
    (p.length < s.tsoMss + s.tsoHeaderLen && s.tsoTotalLen != s.tsoUsedLen && s.useTso)

def partDone (cfg : Config) (e : Nat) (d : TxDesc) (s : TxDescCacheGlobal) :
    Sim TxDescCacheGlobal := do
  simAssert (!s.useTso || s.tsoDescBytesUsed == d.getLen)
  let s ← s.retire cfg e
  pure { s.engineDone e with pktMultiDesc := true }

def offload (env : TxEnv) (d : TxDesc) (s : TxDescCacheGlobal) (data : List UInt8) :
    Sim (List UInt8) :=
  env.headers.checksum d
    (if s.useTso then env.headers.tsoUpdate s.tsoPkts s.tsoPrevSeq
      (s.tsoUsedLen == s.tsoTotalLen) data
    else data)

def completed (env : TxEnv) (e : Nat) (d : TxDesc) (p : EthPacketData) (data : List UInt8)
    (s : TxDescCacheGlobal) : TxDescCacheGlobal :=
  { s with
    toDescCacheGlobal := (s.setBody e (if d.rs then d.setDd else d)).setPkt e
      (some { p with data := data })
    pktMultiDesc := false
    tsoPkts := if s.useTso && env.headers.ip p.contents then s.tsoPkts + 1 else s.tsoPkts
    tsoPrevSeq := if s.useTso then s.tsoUsedLen else s.tsoPrevSeq }

def endTso (s : TxDescCacheGlobal) : TxDescCacheGlobal :=
  if s.useTso && s.tsoUsedLen == s.tsoTotalLen then
    { s with useTso := false, tsoDMAEngineIdx := none }
  else s

def descInBlock (env : TxEnv) (n : Nat) : Nat := n / env.cacheBlockSize / sizeofDesc

def writebackAfterPacket (cfg : Config) (env : TxEnv) (s : TxDescCacheGlobal) :
    Sim TxDescCacheGlobal :=
  if env.wthresh = 0 then s.onBase (DescCacheGlobal.writebackGlobal cfg 0)
  else if !env.gran && env.wthresh ≤ descInBlock env s.usedCache.length then
    s.onBase (DescCacheGlobal.writebackGlobal cfg env.blockMask)
  else if env.wthresh ≤ s.usedCache.length then
    s.onBase (DescCacheGlobal.writebackGlobal cfg env.blockMask)
  else pure s

def retireUsedUp (cfg : Config) (e : Nat) (d : TxDesc) (s : TxDescCacheGlobal) :
    Sim TxDescCacheGlobal :=
  if !s.useTso || d.getLen == s.tsoDescBytesUsed then s.retire cfg e else pure s

def packetDone (cfg : Config) (env : TxEnv) (e : Nat) (d : TxDesc) (p : EthPacketData)
    (s : TxDescCacheGlobal) : Sim TxDescCacheGlobal := do
  simAssert (!d.vle)
  simAssert (s.useTso || d.eop)
  let data ← s.offload env d p.contents
  let s ← (s.completed env e d p data).retireUsedUp cfg e d
  writebackAfterPacket cfg env { s.endTso.engineDone e with tsoPktHasHeader := false }

def onDMAComplete (cfg : Config) (env : TxEnv) (e : Nat) (s : TxDescCacheGlobal) :
    Sim TxDescCacheGlobal := do
  simAssert (e < cfg.numDMAEngines)
  let p ← simSome (s.processingPktArray e)
  let d ← simSome (s.processingCache e).desc
  simAssert (d.body.carriesData && d.body.getLen != 0)
  let (p, s) := s.received e d p
  if s.moreToCome d.body p then s.partDone cfg e d.body else s.packetDone cfg env e d.body p

/-- The bytes of the DMA read of engine `e` arrive in its packet. -/
def landed (env : TxEnv) (e : Nat) (s : TxDescCacheGlobal) : TxDescCacheGlobal :=
  let eng := s.dmaEngineArray e
  { s with
    toDescCacheGlobal := s.setPkt e ((s.processingPktArray e).map
      (EthPacketData.storeAt eng.dmaOff (env.read eng.dmaAddr eng.dmaSize))) }

/-- `pktComplete`: the DMA read of engine `e` ends. -/
def pktComplete (cfg : Config) (env : TxEnv) (e : Nat) (s : TxDescCacheGlobal) :
    Sim TxDescCacheGlobal := do
  simAssert (s.dmaEngineArray e).pktPtr
  let s ← onDMAComplete cfg env e (s.landed env e)
  pure (s.setEngine e { s.dmaEngineArray e with pktPtr := false, dmaAddr := 0 })

def isReady (s : TxDescCacheGlobal) (i : Nat) : Bool :=
  !s.pktMultiDesc && (s.dmaEngineArray i).pktDone &&
    (s.processingPktArray i).any fun p => decide (0 < p.length)

def hasReadyEthPacket (cfg : Config) (s : TxDescCacheGlobal) : Bool :=
  (List.range cfg.numDMAEngines).any s.isReady

def readyEngine (cfg : Config) (s : TxDescCacheGlobal) : Option Nat :=
  ((List.range cfg.numDMAEngines).map fun i =>
    (s.roundRobinIdx + i) % cfg.numDMAEngines).find? s.isReady

def getReadyEthPacket (cfg : Config) (s : TxDescCacheGlobal) :
    Sim (EthPacketData × TxDescCacheGlobal) := do
  let i ← simSome (s.readyEngine cfg)
  let p ← simSome (s.processingPktArray i)
  simAssert (!(s.dmaEngineArray i).pktWaiting)
  pure (p, { s with
    toDescCacheGlobal := s.setPkt i none
    dmaEngineArray := Function.update s.dmaEngineArray i
      { s.dmaEngineArray i with pktDone := false }
    roundRobinIdx := (i + 1) % cfg.numDMAEngines })

variable {φ : Type} (fifo : TxFifo φ)

/-- A finished packet goes to `txFifo`. -/
def pushReadyTo (cfg : Config) (env : TxEnv) (s : TxDescCacheGlobal) (f : φ) :
    Sim (TxDescCacheGlobal × φ) := do
  let (p, s) ← s.getReadyEthPacket cfg
  let (success, f) ← fifo.push p f
  simAssert success
  let s ← onBase (DescCacheGlobal.writebackGlobal cfg env.blockMask)
    { s with sent := s.sent ++ [p] }
  pure (s, f)

/-- The next descriptor, if `txFifo` has room for it. -/
def nextPacket (cfg : Config) (env : TxEnv) (s : TxDescCacheGlobal) (f : φ) :
    Sim (TxDescCacheGlobal × φ) := do
  let (size, s) ← s.getPacketSize
  if 0 < size ∧ size < fifo.avail f then
    let f ← fifo.reserve size f
    let s ← s.getPacketDataGlobal cfg env
    pure (s, f)
  else if size = 0 then
    let s ← s.onBase (DescCacheGlobal.writebackGlobal cfg 0)
    pure (s, f)
  else pure (s, f)

def txStateMachine (cfg : Config) (env : TxEnv) (en candidate : Bool) (s : TxDescCacheGlobal)
    (f : φ) : Sim (TxDescCacheGlobal × φ) :=
  if !en then pure (s, f)
  else if s.hasReadyEthPacket cfg then
    if candidate then s.pushReadyTo fifo cfg env f else pure (s, f)
  else if s.pktHdrWaiting then pure (s, f)
  else do
    if ← s.hasFreeDMAEngine cfg then
      if s.descLeft cfg = 0 then
        let s ← s.onBase (DescCacheGlobal.writebackGlobal cfg 0)
        let s ← s.onBase (DescCacheGlobal.fetchDescriptorsGlobal cfg)
        pure (s, f)
      else if s.descUnused cfg = 0 then
        let s ← s.onBase (DescCacheGlobal.fetchDescriptorsGlobal cfg)
        pure (s, f)
      else
        let s ← s.processContextDesc env
        if s.pktHdrWaiting then pure (s, f) else s.nextPacket fifo cfg env f
    else pure (s, f)

/-- `pushReadyTo` and `txStateMachine` where nothing of `txFifo` is kept. -/
def pushReady (cfg : Config) (env : TxEnv) (pushOk : Bool) (s : TxDescCacheGlobal) :
    Sim TxDescCacheGlobal := do
  let r ← s.pushReadyTo (TxTick.txFifo ⟨true, true, 0, pushOk⟩) cfg env ()
  pure r.1

def tick (cfg : Config) (env : TxEnv) (k : TxTick) (s : TxDescCacheGlobal) :
    Sim TxDescCacheGlobal := do
  let r ← s.txStateMachine k.txFifo cfg env k.en k.candidate ()
  pure r.1

end TxDescCacheGlobal

end Gem5.IGbE
