import Gem5.M2func.TxContext
import Gem5.Shared.Cells

/-!
# From the transmit worker to the device

`DTA::DTATXWorker::notifyWorkerCompletion` hands a descriptor and its payload over as
write requests of at most one flit. They go to `cxlReqQueue`, the same queue as the read
requests of the receive side, and `sendRequestToNIC` sends the requests one by one. The
maps that tell which buffers of a job are done are left out. `submitted` records the
payloads handed over and is never read.
-/

namespace Gem5.DTA

open IGbE

def flitSize : Nat := 64

def cxlReqQueueMaxSize : Nat := 1024

structure TXDescriptor where
  d : BitVec 64
  deriving DecidableEq, Repr

namespace TXDescriptor

/-- `sizeof(TXDescriptor)`. -/
def size : Nat := 8

def dtalen (x : TXDescriptor) : Nat := getBits 0 16 x.d

def reserved1 (x : TXDescriptor) : Nat := getBits 16 2 x.d

end TXDescriptor

inductive CxlReq where
  | write (data : List UInt8) (ddioHeader : Bool)
  | read (jobID : Nat)
  deriving DecidableEq, Repr

/-- A descriptor with its payload, whose `dmaSize` bytes are in `payloadBuffer`. -/
structure TxPayload where
  descriptor : TXDescriptor
  payload : List UInt8
  deriving DecidableEq, Repr

namespace TxPayload

def ethernetPkt (x : TxPayload) : List UInt8 :=
  littleEndian TXDescriptor.size x.descriptor.d.toNat ++ x.payload

def numCxlReq (x : TxPayload) : Nat :=
  (x.payload.length + TXDescriptor.size + flitSize - 1) / flitSize

def flits (x : TxPayload) : List (List UInt8) :=
  (List.range x.numCxlReq).map (Cells.cell flitSize x.ethernetPkt)

def requests (x : TxPayload) : List CxlReq :=
  (List.range x.numCxlReq).map fun i =>
    .write (Cells.cell flitSize x.ethernetPkt i) (i == 0)

end TxPayload

/-- A payload has been read from memory. `false` if the queue has no room for it. -/
def notifyWorkerCompletion (x : TxPayload) (queue : List CxlReq) : Bool × List CxlReq :=
  if cxlReqQueueMaxSize < queue.length + x.numCxlReq then (false, queue)
  else (true, queue ++ x.requests)

structure TxPath where
  cxlReqQueue : List CxlReq
  context : TxM2funcContext
  txFifo : PacketFifo
  submitted : List (List UInt8)

/-- A worker has a payload; the receive side asks for a read; the request at the front is
sent; the device's state machine runs; `txWire` sends a packet. -/
inductive TxPathAct where
  | notify (x : TxPayload)
  | createRead (jobID : Nat)
  | send
  | tick (candidate : Bool)
  | pop
  deriving DecidableEq

namespace TxPath

def construct (maxsize : Nat) : TxPath where
  cxlReqQueue := []
  context := .construct
  txFifo := .construct maxsize
  submitted := []

def notify (x : TxPayload) (s : TxPath) : TxPath :=
  let (success, queue) := notifyWorkerCompletion x s.cxlReqQueue
  { s with
    cxlReqQueue := queue
    submitted := if success then s.submitted ++ [x.payload] else s.submitted }

def createRead (jobID : Nat) (s : TxPath) : TxPath :=
  if s.cxlReqQueue.length < cxlReqQueueMaxSize then
    { s with cxlReqQueue := s.cxlReqQueue ++ [.read jobID] }
  else s

def send (s : TxPath) : Sim TxPath :=
  match s.cxlReqQueue with
  | [] => pure s
  | .read _ :: rest => pure { s with cxlReqQueue := rest }
  | .write data _ :: rest => do
    let context ← s.context.writeM2funcPacket flitSize data
    pure { s with cxlReqQueue := rest, context := context }

def step (h : Headers) (s : TxPath) : TxPathAct → Sim TxPath
  | .notify x => pure (s.notify x)
  | .createRead jobID => pure (s.createRead jobID)
  | .send => s.send
  | .tick candidate => do
    let (context, txFifo) ← s.context.txM2funcStateMachine h candidate s.txFifo
    pure { s with context := context, txFifo := txFifo }
  | .pop => pure { s with txFifo := s.txFifo.pop }

end TxPath

end Gem5.DTA
