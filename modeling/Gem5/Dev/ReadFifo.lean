import Gem5.Shared.Prefixes
import Gem5.Shared.Reachability
import Gem5.Shared.Sim
import Mathlib.Algebra.BigOperators.Group.List.Basic
import Mathlib.Algebra.Order.Ring.Nat

/-!
# A FIFO filled by DMA

Blocks of memory are read ahead in timing mode. The bytes carry the number of their block, the
address and the request they were read with, so that they can be told apart; requests and
blocks are numbered as they are made. `ReadRun` adds the bytes handed out, the requests that
were stopped, and what memory held when a DMA ended.
-/

namespace Gem5.Dev

variable {β : Type}

structure Sample (β : Type) where
  block : Nat
  addr : BitVec 64
  request : Nat
  value : β

def Sample.label (x : Sample β) : Nat × BitVec 64 := (x.block, x.addr)

structure DmaDoneEvent (β : Type) where
  /-- The size of its buffer. -/
  capacity : Nat
  done : Bool
  canceled : Bool
  requestSize : Nat
  data : List (Sample β)
  number : Nat
  block : Nat
  addr : BitVec 64

def span (block : Nat) (a : BitVec 64) (n : Nat) : List (Nat × BitVec 64) :=
  (List.range n).map fun i => (block, a + BitVec.ofNat 64 i)

namespace DmaDoneEvent

def reset (size : Nat) (e : DmaDoneEvent β) : Sim (DmaDoneEvent β) := do
  simAssert (decide (size ≤ e.capacity))
  pure { e with done := false, canceled := false, requestSize := size }

def cancel (e : DmaDoneEvent β) : DmaDoneEvent β := { e with canceled := true }

def labels (e : DmaDoneEvent β) : List (Nat × BitVec 64) := span e.block e.addr e.requestSize

def filled (mem : BitVec 64 → β) (e : DmaDoneEvent β) : DmaDoneEvent β :=
  { e with
    done := true
    data := e.labels.map fun x => ⟨x.1, x.2, e.number, mem x.2⟩ }

end DmaDoneEvent

structure DmaReadFifo (β : Type) where
  maxReqSize : Nat
  fifoSize : Nat
  buffer : List (Sample β)
  nextAddr : BitVec 64
  endAddr : BitVec 64
  pendingRequests : List (DmaDoneEvent β)
  freeRequests : List (DmaDoneEvent β)
  issued : Nat
  /-- The start and the size of each block. -/
  blocks : List (BitVec 64 × BitVec 64)

namespace DmaReadFifo

def init (fifoSize maxReqSize maxPending : Nat) : DmaReadFifo β :=
  ⟨maxReqSize, fifoSize, [], 0, 0, [],
    List.replicate maxPending ⟨maxReqSize, false, false, 0, [], 0, 0, 0⟩, 0, []⟩

def atEndOfBlock (f : DmaReadFifo β) : Bool := f.nextAddr == f.endAddr

def issue (event : DmaDoneEvent β) (free : List (DmaDoneEvent β)) (f : DmaReadFifo β) :
    DmaReadFifo β :=
  { f with
    freeRequests := free
    nextAddr := f.nextAddr + BitVec.ofNat 64 event.requestSize
    pendingRequests := f.pendingRequests ++
      [{ event with number := f.issued, block := f.blocks.length - 1, addr := f.nextAddr }]
    issued := f.issued + 1 }

/-- The loop over the free requests; `sizePending` is the sum over the pending ones. -/
def fill : List (DmaDoneEvent β) → Nat → DmaReadFifo β → Sim (DmaReadFifo β)
  | [], _, f => pure f
  | event :: free, sizePending, f =>
    if f.atEndOfBlock then pure f
    else
      let reqSize := min f.maxReqSize (f.endAddr - f.nextAddr).toNat
      if f.fifoSize < f.buffer.length + sizePending + reqSize then pure f
      else do
        let event ← event.reset reqSize
        fill free (sizePending + reqSize) (f.issue event free)

def resumeFillTiming (f : DmaReadFifo β) : Sim (DmaReadFifo β) :=
  fill f.freeRequests (f.pendingRequests.map DmaDoneEvent.requestSize).sum f

def write (data : List (Sample β)) (len : Nat) (f : DmaReadFifo β) : Sim (DmaReadFifo β) :=
  if f.fifoSize < f.buffer.length + len then .error (.panic "Trying to overfill FIFO buffer.")
  else pure { f with buffer := f.buffer ++ data.take len }

def release : List (DmaDoneEvent β) → DmaReadFifo β → Sim (DmaReadFifo β)
  | [], f => pure f
  | event :: rest, f =>
    if event.done then do
      let f ← if event.canceled then pure f else f.write event.data event.requestSize
      release rest { f with pendingRequests := rest, freeRequests := f.freeRequests ++ [event] }
    else pure f

def handlePending (f : DmaReadFifo β) : Sim (DmaReadFifo β) := release f.pendingRequests f

def dmaDone (k : Nat) (mem : BitVec 64 → β) (f : DmaReadFifo β) : Sim (DmaReadFifo β) :=
  match f.pendingRequests[k]? with
  | none => .error .outOfBounds
  | some event => do
    simAssert (!event.done)
    let f ← { f with pendingRequests := f.pendingRequests.set k (event.filled mem) }.handlePending
    f.resumeFillTiming

def tryGet (len : Nat) (f : DmaReadFifo β) : Sim (Option (List (Sample β)) × DmaReadFifo β) :=
  if len ≤ f.buffer.length then do
    let g ← { f with buffer := f.buffer.drop len }.resumeFillTiming
    pure (some (f.buffer.take len), g)
  else pure (none, f)

def get (len : Nat) (f : DmaReadFifo β) : Sim (List (Sample β) × DmaReadFifo β) := do
  match ← f.tryGet len with
  | (some data, f) => pure (data, f)
  | (none, _) => .error (.panic "Buffer underrun in DmaReadFifo::get()")

def startFill (start size : BitVec 64) (f : DmaReadFifo β) : Sim (DmaReadFifo β) := do
  simAssert f.atEndOfBlock
  { f with
    nextAddr := start
    endAddr := start + size
    blocks := f.blocks ++ [(start, size)] }.resumeFillTiming

def stopFill (f : DmaReadFifo β) : DmaReadFifo β :=
  { f with
    nextAddr := f.endAddr
    pendingRequests := f.pendingRequests.map DmaDoneEvent.cancel }

end DmaReadFifo

structure ReadRun (β : Type) where
  fifo : DmaReadFifo β
  returned : List (Sample β)
  stopped : List Nat
  memories : List (BitVec 64 → β)

namespace ReadRun

inductive Action (β : Type) where
  | startFill (start size : BitVec 64)
  | stopFill
  | tryGet (len : Nat)
  | get (len : Nat)
  | dmaDone (k : Nat) (mem : BitVec 64 → β)

def init (fifoSize maxReqSize maxPending : Nat) : ReadRun β :=
  ⟨.init fifoSize maxReqSize maxPending, [], [], []⟩

def step (s : ReadRun β) : Action β → Sim (ReadRun β)
  | .startFill start size => do
    let f ← s.fifo.startFill start size
    pure { s with fifo := f }
  | .stopFill => pure { s with
      fifo := s.fifo.stopFill
      stopped := s.stopped ++ s.fifo.pendingRequests.map DmaDoneEvent.number }
  | .tryGet len => do
    let x ← s.fifo.tryGet len
    pure { s with fifo := x.2, returned := s.returned ++ x.1.getD [] }
  | .get len => do
    let x ← s.fifo.get len
    pure { s with fifo := x.2, returned := s.returned ++ x.1 }
  | .dmaDone k mem => do
    let f ← s.fifo.dmaDone k mem
    pure { s with fifo := f, memories := s.memories ++ [mem] }

def Enabled (s : ReadRun β) : Action β → Prop
  | .startFill _ _ => s.fifo.atEndOfBlock = true
  | .stopFill => True
  | .tryGet _ => True
  | .get _ => True
  | .dmaDone k _ => ∃ e, s.fifo.pendingRequests[k]? = some e ∧ e.done = false

end ReadRun

end Gem5.Dev
