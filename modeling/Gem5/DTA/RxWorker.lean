import Gem5.M2func.TxContext

/-!
# The receive worker

`DTA::DTARXWorker` collects the flits of one packet and writes the payload to the buffer
of the host, one cache line at a time. `payloadWCBuffer` is the part of the buffer that
has been filled, `currentPayloadWCBufferSize` is its length. `sendDMA` always succeeds,
so there is never a packet to retry. The worker adds to a counter of its job's context
and marks the job's buffers; the amount is a result here, the marks are left out.
-/

namespace Gem5.DTA

open IGbE

/-- `sizeof(RXDescriptor)`. -/
def rxDescriptorSize : Nat := 16

/-- `pkt_len`, in bytes 12 and 13. -/
def pktLen (descriptor : List UInt8) : Nat := ofLittleEndian ((descriptor.drop 12).take 2)

def wcBufferSize : Nat := 16384

structure DmaWrite where
  addr : Nat
  data : List UInt8
  deriving DecidableEq, Repr

structure DTARXWorker where
  working : Bool
  mbufAddr : Nat
  payloadSize : Nat
  receivedPayloadSize : Nat
  allPayloadReceived : Bool
  descriptor : Option (List UInt8)
  payloadWCBuffer : List UInt8
  sentDMASize : Nat
  dmaTransferredSize : Nat
  dmaReady : Bool
  dmaComplete : Bool
  deriving DecidableEq, Repr

namespace DTARXWorker

def idle : DTARXWorker where
  working := false
  mbufAddr := 0
  payloadSize := 0
  receivedPayloadSize := 0
  allPayloadReceived := false
  descriptor := none
  payloadWCBuffer := []
  sentDMASize := 0
  dmaTransferredSize := 0
  dmaReady := false
  dmaComplete := false

def isFree (w : DTARXWorker) : Bool := !w.working

def allocateWorker (addr : Nat) (w : DTARXWorker) : Sim DTARXWorker := do
  simAssert w.descriptor.isNone
  pure { idle with working := true, mbufAddr := addr }

def freeWorker : DTARXWorker := idle

def copyPayload (payload : List UInt8) (w : DTARXWorker) : Sim DTARXWorker :=
  if w.payloadWCBuffer.length + payload.length ≤ wcBufferSize then
    pure { w with payloadWCBuffer := w.payloadWCBuffer ++ payload }
  else .error .outOfBounds

/-- `extraCxlReq`: a difference of `uint64_t` values, rounded up to flits, as `uint32_t`. -/
def extraCxlReq (flitSize payloadSize receivedPayloadSize : Nat) : Nat :=
  ((payloadSize + 2 ^ 64 - receivedPayloadSize) % 2 ^ 64 + flitSize - 1) %
  2 ^ 64 / flitSize % 2 ^ 32

def firstResponse (flitSize : Nat) (data : List UInt8) (ddioHeader : Bool) (w : DTARXWorker) :
    Sim (Nat × DTARXWorker) :=
  if data.length < rxDescriptorSize then .error .outOfBounds
  else do
    simAssert ddioHeader
    simAssert (w.payloadSize == 0)
    let descriptor := data.take rxDescriptorSize
    let payload := data.drop rxDescriptorSize
    let w := { w with
      descriptor := some descriptor
      payloadSize := pktLen descriptor
      receivedPayloadSize := w.receivedPayloadSize + payload.length }
    let extra := extraCxlReq flitSize w.payloadSize w.receivedPayloadSize
    simAssert w.payloadWCBuffer.isEmpty
    let w ← w.copyPayload payload
    simAssert (w.mbufAddr != 0)
    pure (extra, w)

def laterResponse (data : List UInt8) (w : DTARXWorker) : Sim (Nat × DTARXWorker) := do
  simAssert (w.payloadSize != 0)
  simAssert (w.receivedPayloadSize != 0)
  let w := { w with receivedPayloadSize := w.receivedPayloadSize + data.length }
  simAssert (w.receivedPayloadSize ≤ w.payloadSize)
  let w ← w.copyPayload data
  pure (0, w)

/-- The tests at the end of `processDTAResponse`. -/
def checkReady (cacheLineSize : Nat) (w : DTARXWorker) : DTARXWorker :=
  let w := { w with dmaReady := w.dmaReady || decide (cacheLineSize ≤ w.payloadWCBuffer.length) }
  if w.receivedPayloadSize = w.payloadSize then
    { w with allPayloadReceived := true, dmaReady := true }
  else w

/-- The result is what the worker adds to `n_extra_cxl_req_needed`. -/
def processDTAResponse (flitSize cacheLineSize : Nat) (data : List UInt8) (ddioHeader : Bool)
    (w : DTARXWorker) : Sim (Nat × DTARXWorker) := do
  simAssert w.working
  let (extra, w) ← if w.descriptor.isNone then w.firstResponse flitSize data ddioHeader
    else w.laterResponse data
  pure (extra, w.checkReady cacheLineSize)

def makePacket (cacheLineSize : Nat) (w : DTARXWorker) : DmaWrite × DTARXWorker :=
  let left := w.payloadWCBuffer.length - w.sentDMASize
  let dmaSize := if cacheLineSize ≤ left then cacheLineSize else left
  let line := (w.payloadWCBuffer.drop w.sentDMASize).take dmaSize
  (⟨w.mbufAddr + w.sentDMASize, line ++ List.replicate (cacheLineSize - dmaSize) 0⟩,
    { w with sentDMASize := w.sentDMASize + dmaSize })

def wcBufferReadyForDMA (cacheLineSize : Nat) (w : DTARXWorker) : Bool :=
  decide (cacheLineSize ≤ w.payloadWCBuffer.length - w.sentDMASize) ||
    (w.allPayloadReceived && decide (0 < w.payloadWCBuffer.length - w.sentDMASize))

/-- The end of `DTAWork`: everything is sent and written. -/
def checkDone (w : DTARXWorker) : DTARXWorker :=
  if w.sentDMASize < w.payloadSize then w
  else if w.allPayloadReceived && w.dmaComplete then freeWorker
  else w

def dtaWork (cacheLineSize : Nat) (w : DTARXWorker) : Sim (Option DmaWrite × DTARXWorker) :=
  if !w.working then pure (none, w)
  else if w.wcBufferReadyForDMA cacheLineSize then do
    simAssert w.dmaReady
    let (line, w) := w.makePacket cacheLineSize
    pure (some line, w.checkDone)
  else pure (none, w.checkDone)

def handleDMACompletion (size : Nat) (w : DTARXWorker) : Sim DTARXWorker := do
  simAssert w.working
  let w := { w with dmaTransferredSize := w.dmaTransferredSize + size }
  if w.payloadSize ≤ w.dmaTransferredSize then do
    simAssert (w.mbufAddr != 0)
    pure { w with dmaComplete := true }
  else pure w

end DTARXWorker

end Gem5.DTA
