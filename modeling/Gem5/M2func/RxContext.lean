import Gem5.IGbE.RxDescCache

/-!
# The M2func receive context

`IGbE::RxM2funcContext` of one queue. A received packet becomes one entry: descriptor,
data and zeros up to a multiple of the flit size. Reads take it flit by flit. With a
data transfer accelerator the reads are requests that wait for `rxM2funcStateMachine`.

A request carries the buffer its response will be written to; `req` stands for the
identity of its `Request` object. Statistics, the receive counter and checkpoints are
left out. `hist` records what went in and out and is never read.
-/

namespace Gem5.IGbE

/-- The `n` low bytes of a number, lowest first. -/
def littleEndian (n x : Nat) : List UInt8 :=
  (List.range n).map fun i => UInt8.ofNat (x / 256 ^ i)

structure CxlPacket where
  req : Nat
  jobID : Nat
  data : List UInt8
  ddioHeader : Bool
  deriving DecidableEq, Repr

/-- `Packet::setData` with a size: the first bytes of the buffer are overwritten. -/
def CxlPacket.setData (bytes : List UInt8) (size : Nat) (pkt : CxlPacket) : Sim CxlPacket := do
  simAssert (size ≤ pkt.data.length)
  pure { pkt with data := bytes.take size ++ pkt.data.drop size }

namespace RxM2func

def descLength : RxDescType → Nat
  | .legacy => 8
  | _ => 16

/-- `RxM2funcDesc` of a packet: the legacy half of a descriptor, or the write-back
layout of an advanced one. -/
def rxDesc (env : RxEnv) (packet : EthPacket) : Sim (List UInt8) :=
  let r := RxResult.ofPacket env packet packet.length
  match env.desctype with
  | .legacy =>
    pure (littleEndian 2 (packet.length + if env.secrc then 0 else 4) ++ littleEndian 2 0 ++
      littleEndian 1 r.status ++ littleEndian 1 r.err ++ littleEndian 2 0)
  | .advOneBuf => do
    simAssert (packet.length < RxDescCache.bufferLen env)
    pure (littleEndian 2 (r.ptype % 2 ^ 12 * 2 ^ 4) ++ littleEndian 2 0 ++
      (if env.pcsd then littleEndian 4 0 else littleEndian 2 r.ipId ++ littleEndian 2 r.csum) ++
      littleEndian 4 (r.status % 2 ^ 20 + r.extErr % 2 ^ 12 * 2 ^ 20) ++
      littleEndian 2 packet.length ++ littleEndian 2 0)
  | .advSplitA => .error (.panic "Not implemented yet\n")
  | .unimplemented _ => .error (.panic "Unimplemnted RX receive buffer type %d\n")

/-- `cxlPkt_size`, which is computed in `unsigned`. -/
def cxlPktSize (flitSize n : Nat) : Nat := (n + flitSize - 1) % 2 ^ 32 / flitSize * flitSize

/-- Descriptor and data in a new zeroed buffer. A size of `2 ^ 31` on is negative as an
`int`. -/
def pack (flitSize : Nat) (desc data : List UInt8) : Sim (List UInt8) :=
  let n := desc.length + data.length
  let size := cxlPktSize flitSize n
  if 2 ^ 31 ≤ size then .error (.panic "std::bad_array_new_length")
  else if n ≤ size then pure (desc ++ data ++ List.replicate (size - n) 0)
  else .error .outOfBounds

def encode (env : RxEnv) (flitSize : Nat) (packet : EthPacket) : Sim (List UInt8) := do
  let desc ← rxDesc env packet
  pack flitSize desc packet.data

def zeroFlit (env : RxEnv) (flitSize : Nat) : Sim (List UInt8) :=
  match env.desctype with
  | .unimplemented _ => .error (.panic "Unimplemnted RX receive buffer type %d\n")
  | t => if descLength t ≤ flitSize then pure (List.replicate flitSize 0) else .error .outOfBounds

end RxM2func

structure M2funcConfig where
  flitSize : Nat
  rxContextFifoSize : Nat
  numFreeCXLReqMax : Nat
  enableDTA : Bool
  deriving DecidableEq, Repr

inductive Answer where
  | zeroed
  | flit
  deriving DecidableEq, Repr

/-- `given`: the packets and their entries; `answered`: all reads with their answers; `pushed`: the
requests accepted; `sent`: the responses to requests. -/
structure RxM2funcHist where
  given : List (EthPacket × List UInt8)
  answered : List (Answer × CxlPacket)
  pushed : List CxlPacket
  sent : List (Answer × CxlPacket)

structure RxM2funcContext where
  remainPacket : Bool
  bytesSent : Nat
  m2funcRxFifo : List (List UInt8)
  m2funcCXLReqBuf : List CxlPacket
  isLoadGenStarted : Bool
  dtaRXJobSuccess : Nat → Option Bool
  rxPacket : Option EthPacket
  hist : RxM2funcHist

namespace RxM2funcContext

open RxM2func

def construct : RxM2funcContext where
  remainPacket := false
  bytesSent := 0
  m2funcRxFifo := []
  m2funcCXLReqBuf := []
  isLoadGenStarted := false
  dtaRXJobSuccess := fun _ => none
  rxPacket := none
  hist := ⟨[], [], [], []⟩

def pushEntry (packet : EthPacket) (entry : List UInt8) (s : RxM2funcContext) :
    RxM2funcContext :=
  { s with
    m2funcRxFifo := s.m2funcRxFifo ++ [entry]
    hist := { s.hist with given := s.hist.given ++ [(packet, entry)] } }

def processRxPacket (cfg : M2funcConfig) (env : RxEnv) (packet : EthPacket)
    (s : RxM2funcContext) : Sim RxM2funcContext := do
  let entry ← encode env cfg.flitSize packet
  pure (s.pushEntry packet entry)

def logRead (a : Answer) (pkt : CxlPacket) (s : RxM2funcContext) : RxM2funcContext :=
  { s with hist := { s.hist with answered := s.hist.answered ++ [(a, pkt)] } }

/-- The rest of an entry of which `bytesSent` bytes are gone. -/
def readRest (cfg : M2funcConfig) (entry : List UInt8) (rest : List (List UInt8))
    (pkt : CxlPacket) (s : RxM2funcContext) : Sim (CxlPacket × RxM2funcContext) :=
  if s.bytesSent < entry.length then do
    let remainLength := entry.length - s.bytesSent
    let copyLength := if cfg.flitSize < remainLength then cfg.flitSize else remainLength
    let pkt ← pkt.setData (entry.drop s.bytesSent) copyLength
    let sent := s.bytesSent + copyLength
    if sent = entry.length then
      pure (pkt, { s with remainPacket := false, bytesSent := 0, m2funcRxFifo := rest })
    else pure (pkt, { s with bytesSent := sent })
  else
    .error (.panic ("RXM2func[%d]: This case should not happen. if packetLength <= bytesSent, " ++
    "remainPacket should be false\n"))

def readFirst (cfg : M2funcConfig) (entry : List UInt8) (rest : List (List UInt8))
    (pkt : CxlPacket) (s : RxM2funcContext) : Sim (CxlPacket × RxM2funcContext) := do
  let pkt := { pkt with ddioHeader := true }
  if cfg.flitSize < entry.length then
    let pkt ← pkt.setData entry cfg.flitSize
    pure (pkt, { s with remainPacket := true, bytesSent := cfg.flitSize })
  else
    let pkt ← pkt.setData entry entry.length
    pure (pkt, { s with m2funcRxFifo := rest })

def readM2funcPacket (cfg : M2funcConfig) (env : RxEnv) (pkt : CxlPacket) (s : RxM2funcContext) :
    Sim (CxlPacket × RxM2funcContext) := do
  simAssert (pkt.data.length == cfg.flitSize)
  match s.m2funcRxFifo with
  | [] =>
    let data ← zeroFlit env cfg.flitSize
    let pkt := { pkt with data := data }
    pure (pkt, s.logRead .zeroed pkt)
  | entry :: rest =>
    let (pkt, s) ← if s.remainPacket then s.readRest cfg entry rest pkt
      else s.readFirst cfg entry rest pkt
    pure (pkt, s.logRead .flit pkt)

def makeZeroedResponse (cfg : M2funcConfig) (env : RxEnv) (pkt : CxlPacket) : Sim CxlPacket := do
  simAssert (pkt.data.length == cfg.flitSize)
  let data ← zeroFlit env cfg.flitSize
  pure { pkt with data := data }

def m2funcRxFifoFull (cfg : M2funcConfig) (s : RxM2funcContext) : Bool :=
  cfg.rxContextFifoSize ≤ s.m2funcRxFifo.length

def m2funcCXLReqBufFull (cfg : M2funcConfig) (s : RxM2funcContext) : Bool :=
  cfg.numFreeCXLReqMax ≤ s.m2funcCXLReqBuf.length

def pushCXLReqBuf (cfg : M2funcConfig) (pkt : CxlPacket) (s : RxM2funcContext) :
    Bool × RxM2funcContext :=
  if s.m2funcCXLReqBufFull cfg then (false, s)
  else (true, { s with
    m2funcCXLReqBuf := s.m2funcCXLReqBuf ++ [pkt]
    hist := { s.hist with pushed := s.hist.pushed ++ [pkt] } })

def sendCXLResp (a : Answer) (pkt : CxlPacket) (s : RxM2funcContext) : RxM2funcContext :=
  { s with hist := { s.hist with sent := s.hist.sent ++ [(a, pkt)] } }

def answerZeroed (cfg : M2funcConfig) (env : RxEnv) (req : CxlPacket) (rest : List CxlPacket)
    (s : RxM2funcContext) : Sim RxM2funcContext := do
  let pkt ← makeZeroedResponse cfg env req
  pure (sendCXLResp .zeroed pkt { s with m2funcCXLReqBuf := rest })

def answerFlit (cfg : M2funcConfig) (env : RxEnv) (req : CxlPacket) (rest : List CxlPacket)
    (s : RxM2funcContext) : Sim RxM2funcContext := do
  let (pkt, s) ← readM2funcPacket cfg env req { s with m2funcCXLReqBuf := rest }
  pure (s.sendCXLResp .flit pkt)

/-- The first half of `rxM2funcStateMachine`: one request, if it can be answered. -/
def answerRequest (cfg : M2funcConfig) (env : RxEnv) (s : RxM2funcContext) :
    Sim RxM2funcContext :=
  match s.m2funcCXLReqBuf with
  | [] => pure s
  | req :: rest =>
    match s.dtaRXJobSuccess req.jobID with
    | none =>
      if s.m2funcRxFifo.isEmpty then
        if !s.isLoadGenStarted then
          answerZeroed cfg env req rest
            { s with dtaRXJobSuccess := Function.update s.dtaRXJobSuccess req.jobID (some false) }
        else pure s
      else
        answerFlit cfg env req rest
          { s with
            isLoadGenStarted := true
            dtaRXJobSuccess := Function.update s.dtaRXJobSuccess req.jobID (some true) }
    | some true => if s.m2funcRxFifo.isEmpty then pure s else answerFlit cfg env req rest s
    | some false => answerZeroed cfg env req rest s

def takePacket (cfg : M2funcConfig) (env : RxEnv) (s : RxM2funcContext) : Sim RxM2funcContext :=
  match s.rxPacket with
  | none => pure s
  | some packet =>
    if s.m2funcRxFifoFull cfg then pure s
    else do
      let s ← s.processRxPacket cfg env packet
      pure { s with rxPacket := none }

def dtaResponse (cfg : M2funcConfig) (env : RxEnv) (s : RxM2funcContext) : Sim RxM2funcContext :=
  if cfg.enableDTA then s.answerRequest cfg env else pure s

def rxM2funcStateMachine (cfg : M2funcConfig) (env : RxEnv) (s : RxM2funcContext) :
    Sim RxM2funcContext := do
  let s ← s.dtaResponse cfg env
  s.takePacket cfg env

end RxM2funcContext

end Gem5.IGbE
