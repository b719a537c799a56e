import Gem5.IGbE.DescDMA
import Gem5.Shared.InOrder

/-!
# The descriptor cache of one queue

`IGbE::DescCacheGlobal<T>`, with the four ring registers it reads through its
virtual functions. `α` is the descriptor type and `π` the packet type. Deques are
lists, front first; the fixed arrays are functions of the engine index.

Descriptors are heap objects in the source: a `Desc` keeps its contents together
with `origin`, its place in the order of all fetches from the ring. No function
reads `origin` or `History`; they only record what happened.
-/

namespace Gem5.IGbE

structure Config where
  size : Nat
  numDMAEngines : Nat
  numDescDMAEngines : Nat
  dma_pos : 0 < numDMAEngines
  dma_le : numDMAEngines ≤ maxDMAEngineSize
  descDMA_pos : 0 < numDescDMAEngines
  descDMA_le : numDescDMAEngines ≤ maxDMAEngineSize

structure Desc (α : Type) where
  origin : Nat
  body : α
  deriving DecidableEq, Repr

structure ProcessingCacheEntry (α : Type) where
  desc : Option (Desc α)
  seqIdx : Nat
  done : Bool
  deriving DecidableEq, Repr

/-- What the guest and the queue have done since the queue was set up: how many
descriptors were posted by tail writes, the descriptors in the order they were
fetched, became used and were given to a writeback DMA, with the ring slot of
each fetch and writeback, and how many writebacks have been retired. -/
structure History (α : Type) where
  posted : Nat
  fetched : List (Nat × Desc α)
  used : List (Desc α)
  written : List (Nat × Desc α)
  retired : Nat

def seqModulus : Nat := 2 ^ 64

structure DescCacheGlobal (α π : Type) where
  descBase : Nat
  descHead : Nat
  descTail : Nat
  descLen : Nat
  usedCache : List (Desc α)
  unusedCache : List (Desc α)
  nextSeqToWriteback : Nat
  nextSeqToProcess : Nat
  processingCache : Nat → ProcessingCacheEntry α
  processingPktArray : Nat → Option π
  cachePnt : Nat
  curFetching : Nat
  wbOut : Nat
  moreToWb : Bool
  wbAlignment : BitVec 64
  fetch : DescDMAPool α
  wb : DescDMAPool (Desc α)
  hist : History α

namespace DescCacheGlobal

variable {α π : Type}

def construct (α π : Type) (descBase descLen : Nat) : DescCacheGlobal α π where
  descBase := descBase
  descHead := 0
  descTail := 0
  descLen := descLen
  usedCache := []
  unusedCache := []
  nextSeqToWriteback := 0
  nextSeqToProcess := 0
  processingCache := fun _ => ⟨none, 0, false⟩
  processingPktArray := fun _ => none
  cachePnt := 0
  curFetching := 0
  wbOut := 0
  moreToWb := false
  wbAlignment := 0
  fetch := .fresh
  wb := .fresh
  hist := ⟨0, [], [], [], 0⟩

def descProcessing (cfg : Config) (s : DescCacheGlobal α π) : Nat :=
  ((List.range cfg.numDMAEngines).filter fun i => (s.processingCache i).desc.isSome).length

def descLeft (cfg : Config) (s : DescCacheGlobal α π) : Nat :=
  s.unusedCache.length + s.descProcessing cfg +
    if s.descTail < s.cachePnt then s.descLen - s.cachePnt + s.descTail
    else s.descTail - s.cachePnt

def descUsed (s : DescCacheGlobal α π) : Nat := s.usedCache.length

def descUnused (cfg : Config) (s : DescCacheGlobal α π) : Nat :=
  s.unusedCache.length + s.descProcessing cfg

def hasFreeWbDMAEngine (cfg : Config) (s : DescCacheGlobal α π) : Sim Bool :=
  s.wb.hasFree cfg.numDescDMAEngines

def getFreeWbDMAEngine (cfg : Config) (s : DescCacheGlobal α π) : Sim (Option Nat) :=
  s.wb.getFree cfg.numDescDMAEngines

def hasFreeFetchDMAEngine (cfg : Config) (s : DescCacheGlobal α π) : Sim Bool :=
  s.fetch.hasFree cfg.numDescDMAEngines

def getFreeFetchDMAEngine (cfg : Config) (s : DescCacheGlobal α π) : Sim (Option Nat) :=
  s.fetch.getFree cfg.numDescDMAEngines

def waitingWb (s : DescCacheGlobal α π) : Nat := s.usedCache.length - s.wb.curNum

def wbWraps (s : DescCacheGlobal α π) : Bool := s.descLen ≤ s.waitingWb + s.wb.curDMAPnt

/-- `max_to_wb` once the end of the ring or the alignment has cut it. -/
def maxToWb (s : DescCacheGlobal α π) (aMask : BitVec 64) : Nat :=
  if s.wbWraps then s.descLen - s.wb.curDMAPnt
  else if aMask ≠ 0 then (BitVec.ofNat 64 s.waitingWb &&& ~~~aMask).toNat
  else s.waitingWb

/-- The next `k` used descriptors are copied into the buffer of engine `e`, which starts its DMA. -/
def wbStarted (s : DescCacheGlobal α π) (e k : Nat) : DescCacheGlobal α π :=
  let data := (s.usedCache.drop s.wb.curNum).take k
  { s with
    wb := s.wb.started s.descBase s.descLen e k data
    hist := { s.hist with
      written := s.hist.written ++ data.mapIdx fun x d => (s.wb.curDMAPnt + x, d) } }

def startWb (s : DescCacheGlobal α π) (e k : Nat) : Sim (DescCacheGlobal α π) := do
  simAssert (s.wb.curNum + k ≤ s.usedCache.length)
  let _ ← s.wb.start s.descBase s.descLen e k ((s.usedCache.drop s.wb.curNum).take k)
  pure (s.wbStarted e k)

def noteWb (s : DescCacheGlobal α π) (aMask : BitVec 64) : DescCacheGlobal α π :=
  { s with moreToWb := s.wbWraps, wbAlignment := aMask }

def writebackGlobal (cfg : Config) (aMask : BitVec 64) (s : DescCacheGlobal α π) :
    Sim (DescCacheGlobal α π) := do
  simAssert (s.wb.curNum ≤ s.usedCache.length)
  let k := s.maxToWb aMask
  let s := s.noteWb aMask
  if k = 0 then pure s
  else
    if ← s.hasFreeWbDMAEngine cfg then
      let e ← simSome (← s.getFreeWbDMAEngine cfg)
      s.startWb e k
    else pure { s with moreToWb := true }

def maxToFetch (s : DescCacheGlobal α π) : Sim Nat :=
  if s.fetch.curDMAPnt ≤ s.descTail then pure (s.descTail - s.fetch.curDMAPnt)
  else do
    simAssert (s.fetch.curDMAPnt ≤ s.descLen)
    pure (s.descLen - s.fetch.curDMAPnt)

def freeCache (cfg : Config) (s : DescCacheGlobal α π) : Nat :=
  cfg.size - (s.usedCache.length + s.unusedCache.length + s.descProcessing cfg + s.fetch.curNum)

def fetchStarted (s : DescCacheGlobal α π) (e k : Nat) : DescCacheGlobal α π :=
  { s with fetch := s.fetch.started s.descBase s.descLen e k [] }

def fetchDescriptorsGlobal (cfg : Config) (s : DescCacheGlobal α π) :
    Sim (DescCacheGlobal α π) := do
  let k := min (← s.maxToFetch) (s.freeCache cfg)
  if k = 0 then pure s
  else
    if ← s.hasFreeFetchDMAEngine cfg then
      let e ← simSome (← s.getFreeFetchDMAEngine cfg)
      let _ ← s.fetch.start s.descBase s.descLen e k []
      pure (s.fetchStarted e k)
    else pure s

def wbPopped (s : DescCacheGlobal α π) (popIdx k : Nat) : DescCacheGlobal α π :=
  { s with
    wb := s.wb.release popIdx k
    usedCache := s.usedCache.drop k
    descHead := RingIndex.advance s.descLen s.descHead k
    hist := { s.hist with retired := s.hist.retired + k } }

/-- One pass of the loop in `wbCompleteGlobal`. The assert of the inner loop, one
for each descriptor it pops, fails exactly when there are fewer than `k`. -/
def wbPop (popIdx : Nat) (s : DescCacheGlobal α π) : Sim (DescCacheGlobal α π) := do
  let k ← simSome (s.wb.num popIdx)
  simAssert (k ≤ s.wb.curNum)
  simAssert (k ≤ s.usedCache.length)
  pure (s.wbPopped popIdx k)

def wbRetire (e : Nat) (s : DescCacheGlobal α π) : Sim (DescCacheGlobal α π) := do
  simAssert (!s.wb.jobQueue.isEmpty)
  if s.wb.jobQueue.head? = some e then
    InOrder.drainLoop wbPop (fun s j => s.wb.done j) s.wb.jobQueue s
  else pure s

def wbRemaining (cfg : Config) (s : DescCacheGlobal α π) : Sim (DescCacheGlobal α π) :=
  if s.moreToWb then writebackGlobal cfg s.wbAlignment { s with moreToWb := false } else pure s

/-- `fetchAfterWb` fetches when the state machine is not ticking and the device is not draining. -/
def wbCompleteGlobal (cfg : Config) (e : Nat) (fetchAfterWb : Bool) (s : DescCacheGlobal α π) :
    Sim (DescCacheGlobal α π) := do
  simAssert (e < cfg.numDescDMAEngines)
  let s ← wbRetire e { s with wb := s.wb.markDone e }
  let s ← wbRemaining cfg s
  if fetchAfterWb then fetchDescriptorsGlobal cfg s else pure s

def arrivals (base first : Nat) (bodies : List α) : List (Nat × Desc α) :=
  bodies.mapIdx fun x b => (base + x, ⟨first + x, b⟩)

def fetchPopped (s : DescCacheGlobal α π) (popIdx k : Nat) : DescCacheGlobal α π :=
  let news := arrivals ((s.fetch.baseIdx popIdx).getD 0) s.hist.fetched.length
    ((s.fetch.buf popIdx).take k)
  { s with
    fetch := s.fetch.release popIdx k
    unusedCache := s.unusedCache ++ news.map Prod.snd
    cachePnt := if s.cachePnt + k = s.descLen then 0 else s.cachePnt + k
    hist := { s.hist with fetched := s.hist.fetched ++ news } }

/-- One pass of the loop in `fetchCompleteGlobal`. -/
def fetchPop (popIdx : Nat) (s : DescCacheGlobal α π) : Sim (DescCacheGlobal α π) := do
  let k ← simSome (s.fetch.num popIdx)
  simAssert (k ≤ s.fetch.curNum)
  simAssert (s.cachePnt + k ≤ s.descLen)
  pure (s.fetchPopped popIdx k)

def fetchCompleteGlobal (cfg : Config) (e : Nat) (s : DescCacheGlobal α π) :
    Sim (DescCacheGlobal α π) := do
  simAssert (e < cfg.numDescDMAEngines)
  let s := { s with fetch := s.fetch.markDone e }
  simAssert (!s.fetch.jobQueue.isEmpty)
  if s.fetch.jobQueue.head? = some e then
    InOrder.drainLoop fetchPop (fun s j => s.fetch.done j) s.fetch.jobQueue s
  else pure s

/-- The DMA read of engine `e` ends with `data` in its buffer. -/
def fetchComplete (cfg : Config) (e : Nat) (data : List α) (s : DescCacheGlobal α π) :
    Sim (DescCacheGlobal α π) :=
  fetchCompleteGlobal cfg e { s with fetch := (s.fetch.setBuf e data).clear e }

/-- The DMA write of engine `e` ends. -/
def writebackComplete (cfg : Config) (e : Nat) (fetchAfterWb : Bool) (s : DescCacheGlobal α π) :
    Sim (DescCacheGlobal α π) :=
  wbCompleteGlobal cfg e fetchAfterWb { s with wb := s.wb.clear e }

/-- Give the next unused descriptor to packet engine `idx`. -/
def beginProcessing (idx : Nat) (d : Desc α) (s : DescCacheGlobal α π) : DescCacheGlobal α π :=
  { s with
    processingCache := Function.update s.processingCache idx ⟨some d, s.nextSeqToProcess, false⟩
    nextSeqToProcess := (s.nextSeqToProcess + 1) % seqModulus
    unusedCache := s.unusedCache.tail }

def markProcessed (idx : Nat) (s : DescCacheGlobal α π) : DescCacheGlobal α π :=
  { s with
    processingCache := Function.update s.processingCache idx
      { s.processingCache idx with done := true } }

def setBody (idx : Nat) (body : α) (s : DescCacheGlobal α π) : DescCacheGlobal α π :=
  { s with
    processingCache := Function.update s.processingCache idx
      { s.processingCache idx with
        desc := (s.processingCache idx).desc.map fun d => { d with body := body } } }

def setPkt (idx : Nat) (packet : Option π) (s : DescCacheGlobal α π) : DescCacheGlobal α π :=
  { s with processingPktArray := Function.update s.processingPktArray idx packet }

def pushUsed (d : Desc α) (s : DescCacheGlobal α π) : DescCacheGlobal α π :=
  { s with
    usedCache := s.usedCache ++ [d]
    hist := { s.hist with used := s.hist.used ++ [d] } }

/-- The next unused descriptor goes straight to the used cache, as `d`. -/
def useDirectly (d : Desc α) (s : DescCacheGlobal α π) : DescCacheGlobal α π :=
  { s.pushUsed d with unusedCache := s.unusedCache.tail }

/-- One scan of `manageUsedCache` over the packet engines. -/
def retireNext (cfg : Config) (s : DescCacheGlobal α π) : Sim (Option (DescCacheGlobal α π)) :=
  match (List.range cfg.numDMAEngines).find? fun i =>
      (s.processingCache i).done && (s.processingCache i).seqIdx == s.nextSeqToWriteback with
  | none => pure none
  | some i => do
    let d ← simSome (s.processingCache i).desc
    pure (some { s.pushUsed d with
      processingCache := Function.update s.processingCache i ⟨none, 0, false⟩
      nextSeqToWriteback := (s.nextSeqToWriteback + 1) % seqModulus })

/-- Every scan that makes progress empties a slot, so `numDMAEngines` scans are enough. -/
def manageUsedCache (cfg : Config) (s : DescCacheGlobal α π) : Sim (DescCacheGlobal α π) :=
  InOrder.exhaust (retireNext cfg) cfg.numDMAEngines s

def reset (s : DescCacheGlobal α π) : DescCacheGlobal α π :=
  { s with
    usedCache := []
    unusedCache := []
    processingCache := fun i => { s.processingCache i with desc := none }
    processingPktArray := fun _ => none
    fetch := s.fetch.reset
    wb := s.wb.reset
    cachePnt := 0 }

/-- The registers whose write ends in `areaChanged`: base low and high, length, head. -/
inductive AreaRegister where
  | bal
  | bah
  | len
  | head
  deriving DecidableEq, Repr

def writeRegister (r : AreaRegister) (val : BitVec 32) (s : DescCacheGlobal α π) :
    DescCacheGlobal α π :=
  match r with
  | .bal => { s with descBase := s.descBase / 2 ^ 32 * 2 ^ 32 + (val &&& ~~~ 15#32).toNat }
  | .bah => { s with descBase := val.toNat * 2 ^ 32 + s.descBase % 2 ^ 32 }
  | .len => { s with descLen := (val &&& ~~~ 127#32).toNat >>> 4 }
  | .head => { s with descHead := val.toNat }

def areaChanged (s : DescCacheGlobal α π) : Sim (DescCacheGlobal α π) :=
  if 0 < s.usedCache.length ∨ s.curFetching ≠ 0 ∨ s.wbOut ≠ 0 then
    .error (.panic "Descriptor Address, Length or Head changed. Bad\n")
  else .ok s.reset

def areaWrite (r : AreaRegister) (val : BitVec 32) (s : DescCacheGlobal α π) :
    Sim (DescCacheGlobal α π) :=
  (s.writeRegister r val).areaChanged

end DescCacheGlobal

end Gem5.IGbE
