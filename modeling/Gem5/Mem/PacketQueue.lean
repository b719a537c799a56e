import Gem5.Shared.BackInsert
import Gem5.Shared.Sim
import Gem5.Shared.Reachability
import Gem5.Shared.Numbered
import Mathlib.Algebra.Order.Ring.Nat

/-!
# Packet queues

Packets wait in a list until their tick and are sent from its front, by an event or by the
retry of a refused send. Packets are known by the number of their pointer. `QueueRun` adds
what arrived and what was accepted.
-/

namespace Gem5.Mem

structure Packet where
  ptr : Nat
  addr : BitVec 64
  secure : Bool
  expressSnoop : Bool
  deriving DecidableEq

def Packet.matchAddr (p q : Packet) : Bool := p.addr == q.addr && p.secure == q.secure

structure DeferredPacket where
  tick : Nat
  pkt : Packet
  deriving DecidableEq

inductive DrainState where
  | running
  | draining
  | drained
  deriving DecidableEq

structure PacketQueue where
  transmitList : List DeferredPacket
  /-- The time of the event, if it is scheduled. -/
  sendEvent : Option Nat
  waitingOnRetry : Bool
  forceOrder : Bool
  disableSanityCheck : Bool
  drainState : DrainState
  curTick : Nat
  deriving DecidableEq

inductive Reply where
  | accepted (nested : List DeferredPacket)
  | refused

namespace PacketQueue

def deferredPacketReady (q : PacketQueue) : Bool :=
  match q.transmitList with
  | [] => false
  | dp :: _ => decide (dp.tick ≤ q.curTick)

def deferredPacketReadyTime (q : PacketQueue) : Nat :=
  match q.transmitList with
  | [] => maxTick
  | dp :: _ => dp.tick

def schedule (time : Nat) (q : PacketQueue) : Sim PacketQueue := do
  simAssert (decide (q.curTick ≤ time))
  pure { q with sendEvent := some time }

/-- Ticks are 64 bits wide. -/
def schedSendEvent (time : Nat) (q : PacketQueue) : Sim PacketQueue :=
  if q.waitingOnRetry then do
    simAssert q.sendEvent.isNone
    pure q
  else if time ≠ maxTick then
    -- one tick in the future at least
    let time := max time ((q.curTick + 1) % 2 ^ 64)
    match q.sendEvent with
    | none => q.schedule time
    | some t => if time < t then q.schedule time else pure q
  else if q.drainState = .draining ∧ q.transmitList = [] ∧ q.sendEvent = none then
    pure { q with drainState := .drained }
  else pure q

def stopsAt (pkt : Packet) (time : Nat) (q : PacketQueue) (it : DeferredPacket) : Bool :=
  (q.forceOrder && it.pkt.matchAddr pkt) || decide (it.tick ≤ time)

def enqueue (pkt : Packet) (time : Nat) (q : PacketQueue) : Sim PacketQueue :=
  match BackInsert.insertBehind (q.stopsAt pkt time) ⟨time, pkt⟩ q.transmitList with
  | some list => pure { q with transmitList := list }
  | none => { q with transmitList := ⟨time, pkt⟩ :: q.transmitList }.schedSendEvent time

def schedSendTiming (pkt : Packet) (time : Nat) (q : PacketQueue) : Sim PacketQueue := do
  simAssert (decide (q.curTick ≤ time))
  simAssert (!pkt.expressSnoop)
  if q.disableSanityCheck = false ∧ 1024 < q.transmitList.length then
    .error (.panic "Packet queue has grown beyond 1024 packets")
  else q.enqueue pkt time

def nestedCalls : List DeferredPacket → PacketQueue → Sim PacketQueue
  | [], q => .ok q
  | dp :: rest, q => do
    let q ← q.schedSendTiming dp.pkt dp.tick
    nestedCalls rest q

def sendDeferredPacket (reply : Reply) (q : PacketQueue) : Sim PacketQueue := do
  simAssert (!q.waitingOnRetry)
  simAssert q.deferredPacketReady
  let dp ← simSome q.transmitList.head?
  let q := { q with transmitList := q.transmitList.tail }
  match reply with
  | .accepted nested =>
    let q ← nestedCalls nested q
    q.schedSendEvent q.deferredPacketReadyTime
  | .refused => pure { q with transmitList := dp :: q.transmitList, waitingOnRetry := true }

def retry (reply : Reply) (q : PacketQueue) : Sim PacketQueue := do
  simAssert q.waitingOnRetry
  { q with waitingOnRetry := false }.sendDeferredPacket reply

def processSendEvent (reply : Reply) (q : PacketQueue) : Sim PacketQueue := do
  simAssert (!q.waitingOnRetry)
  { q with sendEvent := none }.sendDeferredPacket reply

def init (forceOrder disableSanityCheck : Bool) (curTick : Nat) : PacketQueue :=
  ⟨[], none, false, forceOrder, disableSanityCheck, .running, curTick⟩

end PacketQueue

structure QueueRun where
  queue : PacketQueue
  arrived : List DeferredPacket
  accepted : List (DeferredPacket × Nat)

namespace QueueRun

inductive Action where
  | schedSendTiming (pkt : Packet) (time : Nat)
  | processSendEvent (reply : Reply)
  | retry (reply : Reply)
  | passTime (tick : Nat)

def init (forceOrder disableSanityCheck : Bool) (curTick : Nat) : QueueRun :=
  ⟨.init forceOrder disableSanityCheck curTick, [], []⟩

def sent (s : QueueRun) (reply : Reply) (q : PacketQueue) : QueueRun :=
  match reply with
  | .accepted nested =>
    ⟨q, s.arrived ++ nested,
      s.accepted ++ s.queue.transmitList.head?.toList.map fun dp => (dp, s.queue.curTick)⟩
  | .refused => { s with queue := q }

def step (s : QueueRun) : Action → Sim QueueRun
  | .schedSendTiming pkt time => do
    let q ← s.queue.schedSendTiming pkt time
    pure { s with queue := q, arrived := s.arrived ++ [⟨time, pkt⟩] }
  | .processSendEvent reply => do
    let q ← s.queue.processSendEvent reply
    pure (s.sent reply q)
  | .retry reply => do
    let q ← s.queue.retry reply
    pure (s.sent reply q)
  | .passTime tick => .ok { s with queue := { s.queue with curTick := tick } }

def Arrivals (s : QueueRun) (new : List DeferredPacket) : Prop :=
  Numbered (·.pkt.ptr) s.arrived.length new ∧
    ∀ dp ∈ new, s.queue.curTick ≤ dp.tick ∧ dp.pkt.expressSnoop = false

def Reply.new : Reply → List DeferredPacket
  | .accepted nested => nested
  | .refused => []

def Action.new : Action → List DeferredPacket
  | .schedSendTiming pkt time => [⟨time, pkt⟩]
  | .processSendEvent reply => Reply.new reply
  | .retry reply => Reply.new reply
  | .passTime _ => []

def Enabled (s : QueueRun) : Action → Prop
  | .schedSendTiming _ _ => True
  | .processSendEvent _ => s.queue.sendEvent = some s.queue.curTick
  | .retry _ => s.queue.waitingOnRetry = true
  | .passTime tick => s.queue.curTick ≤ tick ∧ ∀ e ∈ s.queue.sendEvent, tick ≤ e

def Admissible (s : QueueRun) (a : Action) : Prop := s.Arrivals a.new ∧ s.Enabled a

instance {s : QueueRun} {new : List DeferredPacket} : Decidable (s.Arrivals new) :=
  inferInstanceAs (Decidable (_ = _ ∧ _))

instance {s : QueueRun} : (a : Action) → Decidable (s.Enabled a)
  | .schedSendTiming _ _ => .isTrue trivial
  | .processSendEvent _ => inferInstanceAs (Decidable (_ = _))
  | .retry _ => inferInstanceAs (Decidable (_ = _))
  | .passTime _ => inferInstanceAs (Decidable (_ ∧ _))

instance {s : QueueRun} {a : Action} : Decidable (s.Admissible a) :=
  inferInstanceAs (Decidable (_ ∧ _))

end QueueRun

end Gem5.Mem
