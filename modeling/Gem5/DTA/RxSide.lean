import Gem5.DTA.RxWorker
import Gem5.DTA.TxWorker

/-!
# The receive side of the accelerator

`DTA` takes jobs from the host: a job is a list of buffers, sent in one first packet and
in continuation packets. Each job gets a context. For the job in front of
`rxContextIDQueue` the accelerator sends read requests to the device and gives the
responses to workers.

The counters of a context are natural numbers; only `num_free_request_in_NIC` is ever
decreased. `req` of a request is the identity of its `Request` object. Requests of the
transmit side share `cxlReqQueue` and appear there as `write`. Timing mode only; zero
copy, statistics and the start of the clock are left out. `noPacketJobs` records the jobs that were
told "no packet" and is never read.
-/

namespace Gem5.DTA

open IGbE

def dtaMaxMbufNum : Nat := 100

def rxContextListSize : Nat := 10

def submissionQueueMaxSize : Nat := 1024

/-- `(flitSize - rxJobReqMetadataSize) / sizeof(Addr)`. -/
def rxFirstJobPacketNumMbufAddr : Nat := 6

def restJobPacketNumMbufAddr : Nat := 8

structure JobPacket where
  words : List Nat
  size : words.length = 8
  deriving DecidableEq

def JobPacket.word (i : Nat) (pkt : JobPacket) : Nat := pkt.words.getD i 0

/-- Where a packet of the host has its data. The host leaves static data as it is until the
packet has been parsed. -/
inductive PacketData where
  | static
  | dynamic (fresh : JobPacket)

/-- What is read from `new Packet(pkt, false, true)`: it points to static data, and for dynamic
data it gets new memory, which nobody writes to and which holds `fresh`. -/
def PacketData.copy (pkt : JobPacket) : PacketData → JobPacket
  | .static => pkt
  | .dynamic fresh => fresh

structure DTARXContext where
  rxJobID : Nat
  valid : Bool
  completionStage : Bool
  completionAddr : Nat
  descAddr : Nat
  mbufAddr : List Nat
  nbPkts : Nat
  nRecv : Nat
  numFreeRequestInNIC : Nat
  lastDTARXWorker : Nat
  nMbufAddrReceived : Nat
  nExtraCxlReqNeeded : Nat
  nExtraCxlReqReceived : Nat
  nDescWriteCompleted : Nat
  nCachelineIdxWriteCompleted : Nat
  rxDescMap : Nat → Option (List UInt8)
  rxCompleteMap : Nat → Option Bool

namespace DTARXContext

/-- `clearDTARXContext`. -/
def clear : DTARXContext where
  rxJobID := 0
  valid := false
  completionStage := false
  completionAddr := 0
  descAddr := 0
  mbufAddr := List.replicate dtaMaxMbufNum 0
  nbPkts := 0
  nRecv := 0
  numFreeRequestInNIC := 0
  lastDTARXWorker := 0
  nMbufAddrReceived := 0
  nExtraCxlReqNeeded := 0
  nExtraCxlReqReceived := 0
  nDescWriteCompleted := 0
  nCachelineIdxWriteCompleted := 0
  rxDescMap := fun _ => none
  rxCompleteMap := fun _ => none

def inInitializationStage (c : DTARXContext) : Bool :=
  c.valid && decide (c.nMbufAddrReceived < c.nbPkts)

def storeMbufAddr (addr : Nat) (c : DTARXContext) : Sim DTARXContext :=
  if c.nMbufAddrReceived < dtaMaxMbufNum then
    pure { c with
      mbufAddr := c.mbufAddr.set c.nMbufAddrReceived addr
      rxCompleteMap := Function.update c.rxCompleteMap addr (some false)
      nMbufAddrReceived := c.nMbufAddrReceived + 1 }
  else .error .outOfBounds

def storeMbufAddrs : List Nat → DTARXContext → Sim DTARXContext
  | [], c => pure c
  | addr :: rest, c => do
    let c ← c.storeMbufAddr addr
    storeMbufAddrs rest c

def begin (jobID cacheLineSize : Nat) (pkt : JobPacket) (c : DTARXContext) : DTARXContext :=
  { c with
    rxJobID := jobID
    valid := true
    completionStage := false
    completionAddr := pkt.word 0
    descAddr := pkt.word 0 + cacheLineSize
    nbPkts := pkt.word 1 % 2 ^ 32
    nRecv := 0
    numFreeRequestInNIC := 0
    lastDTARXWorker := 0
    nMbufAddrReceived := 0
    nExtraCxlReqNeeded := 0
    nExtraCxlReqReceived := 0
    nDescWriteCompleted := 0
    nCachelineIdxWriteCompleted := 0
    rxDescMap := fun _ => none
    rxCompleteMap := fun _ => none }

def parseFirst (jobID cacheLineSize : Nat) (pkt : JobPacket) (c : DTARXContext) :
    Sim DTARXContext :=
  let c := c.begin jobID cacheLineSize pkt
  c.storeMbufAddrs ((pkt.words.drop 2).take (min c.nbPkts rxFirstJobPacketNumMbufAddr))

def parseRest (pkt : JobPacket) (c : DTARXContext) : Sim DTARXContext := do
  let c ← c.storeMbufAddrs
    (pkt.words.take (min restJobPacketNumMbufAddr (c.nbPkts - c.nMbufAddrReceived)))
  simAssert (c.nMbufAddrReceived ≤ c.nbPkts)
  pure c

/-- Decrement of a `uint32_t`. -/
def decrement (n : Nat) : Nat := if n = 0 then 2 ^ 32 - 1 else n - 1

/-- The asserts of `checkThreshold` and its comparison. -/
def checkThreshold (c : DTARXContext) : Sim Bool :=
  if c.valid then do
    simAssert (c.nExtraCxlReqReceived ≤ c.nExtraCxlReqNeeded)
    let extra := c.nExtraCxlReqNeeded - c.nExtraCxlReqReceived
    simAssert (c.nRecv ≤ c.nMbufAddrReceived)
    let needed := c.nMbufAddrReceived - c.nRecv
    pure (decide (c.numFreeRequestInNIC < needed + extra))
  else pure false

def countResponse (ddioHeader : Bool) (c : DTARXContext) : DTARXContext :=
  if ddioHeader then { c with nRecv := c.nRecv + 1 }
  else { c with nExtraCxlReqReceived := c.nExtraCxlReqReceived + 1 }

def setDescriptor (mbufAddr extra : Nat) (descriptor : Option (List UInt8))
    (c : DTARXContext) : DTARXContext :=
  { c with
    nExtraCxlReqNeeded := c.nExtraCxlReqNeeded + extra
    rxDescMap := Function.update c.rxDescMap mbufAddr descriptor }

def allPacketsDMAed (c : DTARXContext) : Sim Bool :=
  if c.nbPkts ≤ dtaMaxMbufNum then
    pure ((c.mbufAddr.take c.nbPkts).all fun addr => c.rxCompleteMap addr == some true)
  else .error .outOfBounds

/-- The first part of `checkRXJobCompletion`. -/
def enterCompletionStage (c : DTARXContext) : Sim DTARXContext :=
  if c.completionStage then pure c
  else do
    simAssert (c.nbPkts != 0)
    if c.nRecv = c.nbPkts then
      let done ← c.allPacketsDMAed
      pure { c with completionStage := done }
    else pure c

def nextDescriptors (cacheLineSize : Nat) (c : DTARXContext) : Sim (List (List UInt8)) :=
  let num := min (cacheLineSize / rxDescriptorSize) (c.nbPkts - c.nDescWriteCompleted)
  if c.nDescWriteCompleted + num ≤ dtaMaxMbufNum then
    ((c.mbufAddr.drop c.nDescWriteCompleted).take num).mapM fun addr => simSome (c.rxDescMap addr)
  else .error .outOfBounds

end DTARXContext

/-- `getInitializationStageRXContextID`: the loop over the contexts. -/
def initializationLoop : List DTARXContext → Nat → Option Nat → Sim (Option Nat)
  | [], _, found => pure found
  | c :: rest, i, found =>
    if c.inInitializationStage then do
      simAssert found.isNone
      initializationLoop rest (i + 1) (some i)
    else initializationLoop rest (i + 1) found

def getInitializationStageRXContextID (contexts : List DTARXContext) : Sim (Option Nat) :=
  initializationLoop contexts 0 none

def getNonActiveRXContextID (contexts : List DTARXContext) : Option Nat :=
  contexts.findIdx? fun c => !c.valid

/-- There is no `return` behind the loop: with every context in use the result is
whatever the caller finds. -/
def hasNonActiveRXContext (found : Bool) (contexts : List DTARXContext) : Bool :=
  contexts.any (fun c => !c.valid) || found

def getParsingTargetRXContextID (contexts : List DTARXContext) : Sim (Option Nat) := do
  match ← getInitializationStageRXContextID contexts with
  | some i => pure (some i)
  | none => pure (getNonActiveRXContextID contexts)

inductive DtaRequest where
  | read (pkt : CxlPacket)
  | write
  deriving DecidableEq

inductive IoCacheRequest where
  | completion (addr : Nat) (id : Int)
  | descriptors (addr : Nat) (descs : List (List UInt8))
  | dma (worker : Nat) (line : DmaWrite)
  deriving DecidableEq

structure RXWorker where
  rxContextID : Option Nat
  worker : DTARXWorker
  deriving DecidableEq

structure RxSide where
  contexts : List DTARXContext
  rxContextIDQueue : List Nat
  globalRxJobID : Nat
  rxJobSubmissionQueue : List JobPacket
  checkRXJobQueue : Bool
  ioCacheRequestQueue : List IoCacheRequest
  cxlReqQueue : List DtaRequest
  waitingOnRetry : Bool
  dtaRequestTracker : List Nat
  nextReq : Nat
  workerWaitingQueue : List (CxlPacket × Nat)
  workers : List RXWorker
  noPacketJobs : List Nat

namespace RxSide

def construct (numDTARXWorker : Nat) : RxSide where
  contexts := List.replicate rxContextListSize DTARXContext.clear
  rxContextIDQueue := []
  globalRxJobID := 0
  rxJobSubmissionQueue := []
  checkRXJobQueue := true
  ioCacheRequestQueue := []
  cxlReqQueue := []
  waitingOnRetry := false
  dtaRequestTracker := []
  nextReq := 0
  workerWaitingQueue := []
  workers := List.replicate numDTARXWorker ⟨none, DTARXWorker.idle⟩
  noPacketJobs := []

def context (i : Nat) (s : RxSide) : Sim DTARXContext :=
  match s.contexts[i]? with
  | some c => .ok c
  | none => .error .outOfBounds

def setContext (i : Nat) (c : DTARXContext) (s : RxSide) : RxSide :=
  { s with contexts := s.contexts.set i c }

def pushIOCacheRequestQueue (r : IoCacheRequest) (s : RxSide) : RxSide :=
  { s with ioCacheRequestQueue := s.ioCacheRequestQueue ++ [r] }

section Submission

def recvTimingReq (data : PacketData) (pkt : JobPacket) (s : RxSide) : Sim (Bool × RxSide) :=
  if submissionQueueMaxSize ≤ s.rxJobSubmissionQueue.length then pure (false, s)
  else do
    let stage ← getInitializationStageRXContextID s.contexts
    if stage.isNone && decide (1024 < pkt.word 1) then pure (true, s)
    else pure (true, { s with
      rxJobSubmissionQueue := s.rxJobSubmissionQueue ++ [data.copy pkt] })

/-- The first packet of a job opens context `i`. -/
def openContext (cacheLineSize i : Nat) (pkt : JobPacket) (c : DTARXContext) (s : RxSide) :
    Sim RxSide := do
  let jobID := s.globalRxJobID + 1
  let c ← c.parseFirst jobID cacheLineSize pkt
  pure (pushIOCacheRequestQueue (.completion c.completionAddr 0)
    { s.setContext i c with
      rxContextIDQueue := s.rxContextIDQueue ++ [i]
      globalRxJobID := jobID })

def continueContext (i : Nat) (pkt : JobPacket) (c : DTARXContext) (s : RxSide) : Sim RxSide := do
  let c ← c.parseRest pkt
  let s := s.setContext i c
  if c.nMbufAddrReceived = c.nbPkts then
    pure (s.pushIOCacheRequestQueue
      (.completion c.completionAddr (if c.nRecv = 0 then 1 else c.nRecv)))
  else pure s

def parseInto (cacheLineSize i : Nat) (pkt : JobPacket) (c : DTARXContext) (s : RxSide) :
    Sim RxSide :=
  if c.valid then s.continueContext i pkt c else s.openContext cacheLineSize i pkt c

def parseJobRequestAndSetContext (cacheLineSize : Nat) (pkt : JobPacket) (s : RxSide) :
    Sim (Bool × RxSide) := do
  match ← getParsingTargetRXContextID s.contexts with
  | none => pure (false, s)
  | some i =>
    let c ← s.context i
    let s ← s.parseInto cacheLineSize i pkt c
    pure (true, s)

def canScheduleRXJob (found : Bool) (s : RxSide) : Sim Bool :=
  if s.rxJobSubmissionQueue.isEmpty then pure false
  else if hasNonActiveRXContext found s.contexts then pure true
  else do
    let stage ← getInitializationStageRXContextID s.contexts
    pure stage.isSome

def scheduleRXJob (cacheLineSize : Nat) (s : RxSide) : Sim RxSide :=
  match s.rxJobSubmissionQueue with
  | [] => .error .assertion
  | pkt :: rest => do
    let (success, s) ← s.parseJobRequestAndSetContext cacheLineSize pkt
    if success then pure { s with rxJobSubmissionQueue := rest } else pure s

/-- `canScheduleTXJob` is what the transmit side says, `found` the value of
`hasNonActiveRXContext` when every context is in use. -/
def checkSubmissionQueue (cacheLineSize : Nat) (canScheduleTXJob found : Bool) (s : RxSide) :
    Sim RxSide := do
  let canRX ← s.canScheduleRXJob found
  if canRX && (s.checkRXJobQueue || !canScheduleTXJob) then
    scheduleRXJob cacheLineSize { s with checkRXJobQueue := false }
  else if canScheduleTXJob then pure { s with checkRXJobQueue := true }
  else pure s

end Submission

section Requests

def createDTARequest (c : DTARXContext) (s : RxSide) : CxlPacket :=
  ⟨s.nextReq, c.rxJobID, List.replicate 64 0, false⟩

def allocDTARequest (pkt : CxlPacket) (s : RxSide) : Sim RxSide := do
  simAssert (!s.dtaRequestTracker.contains pkt.req)
  pure { s with dtaRequestTracker := s.dtaRequestTracker ++ [pkt.req] }

/-- The first half of `sendRequestToNIC`: the front request goes to the device, if
`accepts` says that it takes one. The result is the read that it got. -/
def sendFront (accepts : Bool) (s : RxSide) : Sim (Option CxlPacket × RxSide) :=
  if s.waitingOnRetry then pure (none, s)
  else
    match s.cxlReqQueue with
    | [] => pure (none, s)
    | r :: rest =>
      if accepts then
        match r with
        | .read pkt => do
          let s ← s.allocDTARequest pkt
          pure (some pkt, { s with cxlReqQueue := rest })
        | .write => pure (none, { s with cxlReqQueue := rest })
      else pure (none, { s with waitingOnRetry := true })

def requestMore (s : RxSide) : Sim RxSide :=
  match s.rxContextIDQueue with
  | [] => pure s
  | i :: _ => do
    let c ← s.context i
    if ← c.checkThreshold then
      let pkt := s.createDTARequest c
      if s.cxlReqQueue.length < cxlReqQueueMaxSize then do
        simAssert c.valid
        pure { s.setContext i { c with numFreeRequestInNIC := c.numFreeRequestInNIC + 1 } with
          cxlReqQueue := s.cxlReqQueue ++ [.read pkt]
          nextReq := s.nextReq + 1 }
      else pure { s with nextReq := s.nextReq + 1 }
    else pure s

def sendRequestToNIC (accepts : Bool) (s : RxSide) : Sim (Option CxlPacket × RxSide) := do
  let (sent, s) ← s.sendFront accepts
  let s ← s.requestMore
  pure (sent, s)

/-- `recvReqRetry` of the port to the device. -/
def recvReqRetry (accepts : Bool) (s : RxSide) : Sim (Option CxlPacket × RxSide) := do
  simAssert s.waitingOnRetry
  sendRequestToNIC accepts { s with waitingOnRetry := false }

end Requests

section Responses

def eraseRequest (pkt : CxlPacket) (s : RxSide) : RxSide :=
  { s with dtaRequestTracker := s.dtaRequestTracker.erase pkt.req }

/-- The job of context `i` is told that there is no packet. -/
def noPacket (i : Nat) (c : DTARXContext) (s : RxSide) : RxSide :=
  { (s.pushIOCacheRequestQueue (.completion c.completionAddr (-1))).setContext i
      DTARXContext.clear with
    rxContextIDQueue := s.rxContextIDQueue.tail
    noPacketJobs := s.noPacketJobs ++ [c.rxJobID] }

def takeResponse (i : Nat) (pkt : CxlPacket) (c : DTARXContext) (s : RxSide) : RxSide :=
  { s.setContext i (c.countResponse pkt.ddioHeader) with
    workerWaitingQueue := s.workerWaitingQueue ++ [(pkt, c.nRecv)] }

def recvForFront (i : Nat) (pkt : CxlPacket) (c : DTARXContext) (s : RxSide) : Sim RxSide :=
  if s.dtaRequestTracker.contains pkt.req then
    let c := { c with numFreeRequestInNIC := DTARXContext.decrement c.numFreeRequestInNIC }
    let s := (s.eraseRequest pkt).setContext i c
    if pkt.data.all (· == 0) then pure (s.noPacket i c) else pure (s.takeResponse i pkt c)
  else .error (.panic "Error: DTA receive response. But cannot find the DTA request\n")

def recvTimingRespfromNIC (pkt : CxlPacket) (s : RxSide) : Sim RxSide :=
  match s.rxContextIDQueue with
  | [] => pure (s.eraseRequest pkt)
  | i :: _ => do
    let c ← s.context i
    if c.valid && c.rxJobID == pkt.jobID then s.recvForFront i pkt c
    else pure (s.eraseRequest pkt)

end Responses

section Workers

def findDTARXWorker (pkt : CxlPacket) (i : Nat) (s : RxSide) : Sim (Option Nat × RxSide) := do
  let c ← s.context i
  if pkt.ddioHeader then
    match s.workers.findIdx? fun w => w.worker.isFree with
    | none => pure (none, s)
    | some j => pure (some j, s.setContext i { c with lastDTARXWorker := j })
  else
    match s.workers[c.lastDTARXWorker]? with
    | none => .error (.panic "Error: Wrong last worker index that is processing the packet\n")
    | some w =>
      if w.worker.isFree then
        .error (.panic "Error: Cannot find the last worker that is processing the packet\n")
      else pure (some c.lastDTARXWorker, s)

/-- A free worker is set up for buffer `nRecv` of context `i`. -/
def allocateWorker (nRecv i : Nat) (w : RXWorker) (s : RxSide) : Sim RXWorker :=
  if w.worker.isFree then do
    let c ← s.context i
    match c.mbufAddr[nRecv]? with
    | none => .error .outOfBounds
    | some addr =>
      simAssert (addr != 0)
      let worker ← w.worker.allocateWorker addr
      pure ⟨some i, worker⟩
  else pure w

/-- Worker `j` processes a response. -/
def processDTAResponse (cacheLineSize j : Nat) (pkt : CxlPacket) (w : RXWorker) (s : RxSide) :
    Sim RxSide := do
  let (extra, worker) ← w.worker.processDTAResponse 64 cacheLineSize pkt.data pkt.ddioHeader
  let s := { s with workers := s.workers.set j { w with worker := worker } }
  if w.worker.descriptor.isNone then do
    let i ← simSome w.rxContextID
    let c ← s.context i
    pure (s.setContext i (c.setDescriptor w.worker.mbufAddr extra worker.descriptor))
  else pure s

def allocateWorkerFromQueue (cacheLineSize i : Nat) (s : RxSide) : Sim RxSide :=
  match s.workerWaitingQueue with
  | [] => pure s
  | (pkt, nRecv) :: rest => do
    let (found, s) ← s.findDTARXWorker pkt i
    match found with
    | none => pure s
    | some j =>
      let w ← simSome s.workers[j]?
      let w ← s.allocateWorker nRecv i w
      let s ← s.processDTAResponse cacheLineSize j pkt w
      pure { s with workerWaitingQueue := rest }

/-- `DTAWork` of worker `j`. -/
def dtaWork (cacheLineSize j : Nat) (s : RxSide) : Sim RxSide := do
  let w ← simSome s.workers[j]?
  let (sent, worker) ← w.worker.dtaWork cacheLineSize
  let s := { s with
    workers := s.workers.set j ⟨if worker.working then w.rxContextID else none, worker⟩ }
  match sent with
  | none => pure s
  | some line => pure (s.pushIOCacheRequestQueue (.dma j line))

def dtaWorkAll (cacheLineSize : Nat) : Nat → RxSide → Sim RxSide
  | 0, s => pure s
  | n + 1, s => do
    let s ← dtaWorkAll cacheLineSize n s
    s.dtaWork cacheLineSize n

/-- A DMA write of worker `j` is done. -/
def handleDMACompletion (j size : Nat) (s : RxSide) : Sim RxSide := do
  let w ← simSome s.workers[j]?
  let worker ← w.worker.handleDMACompletion size
  let s := { s with workers := s.workers.set j { w with worker := worker } }
  if w.worker.payloadSize ≤ worker.dmaTransferredSize then do
    let i ← simSome w.rxContextID
    let c ← s.context i
    simAssert (c.rxCompleteMap w.worker.mbufAddr).isSome
    pure (s.setContext i { c with
      rxCompleteMap := Function.update c.rxCompleteMap w.worker.mbufAddr (some true) })
  else pure s

def ioCacheDone (k : Nat) (s : RxSide) : Sim RxSide :=
  match s.ioCacheRequestQueue[k]? with
  | none => pure s
  | some r =>
    let s := { s with ioCacheRequestQueue := s.ioCacheRequestQueue.eraseIdx k }
    match r with
    | .dma j line => s.handleDMACompletion j line.data.length
    | _ => pure s

end Workers

section Completion

def writeCompletion (cacheLineSize i : Nat) (c : DTARXContext) (s : RxSide) : Sim RxSide :=
  if c.nDescWriteCompleted < c.nbPkts then do
    let descs ← c.nextDescriptors cacheLineSize
    let num := min (cacheLineSize / rxDescriptorSize) (c.nbPkts - c.nDescWriteCompleted)
    simAssert (c.nDescWriteCompleted + num ≤ c.nbPkts)
    let addr := c.descAddr + c.nCachelineIdxWriteCompleted * cacheLineSize
    pure ((s.pushIOCacheRequestQueue (.descriptors addr descs)).setContext i
      { c with
        nDescWriteCompleted := c.nDescWriteCompleted + num
        nCachelineIdxWriteCompleted := c.nCachelineIdxWriteCompleted + 1 })
  else do
    let perLine := cacheLineSize / rxDescriptorSize
    simAssert (c.nDescWriteCompleted == c.nbPkts)
    simAssert (c.nCachelineIdxWriteCompleted == (c.nbPkts + (perLine - 1)) / perLine)
    pure { (s.pushIOCacheRequestQueue (.completion c.completionAddr c.nRecv)).setContext i
        DTARXContext.clear with
      rxContextIDQueue := s.rxContextIDQueue.tail }

def checkRXJobCompletion (cacheLineSize i : Nat) (s : RxSide) : Sim RxSide := do
  let c ← s.context i
  if c.valid then do
    let c ← c.enterCompletionStage
    let s := s.setContext i c
    if c.completionStage then s.writeCompletion cacheLineSize i c else pure s
  else pure s

def dtaRXStateMachine (cacheLineSize : Nat) (s : RxSide) : Sim RxSide :=
  match s.rxContextIDQueue with
  | [] => pure s
  | i :: _ => do
    let s ← s.checkRXJobCompletion cacheLineSize i
    let s ← s.dtaWorkAll cacheLineSize s.workers.length
    s.allocateWorkerFromQueue cacheLineSize i

end Completion

end RxSide

end Gem5.DTA
