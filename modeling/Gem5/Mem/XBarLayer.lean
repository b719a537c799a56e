import Gem5.Shared.Sim
import Gem5.Shared.Reachability

/-!
# A layer of the crossbar

A layer forwards one packet at a time and keeps the ports it refused. `sendRetry` may call
the layer again, so `retryWaiting` is in two parts, before and after that call. `LayerRun`
adds which calls are under way and what the ports have been told. `Line` is the order in
which they should be told to retry.
-/

namespace Gem5.Mem

inductive LayerState where
  | idle
  | busy
  | retry
  deriving DecidableEq

structure Layer (P : Type) where
  state : LayerState
  waitingForLayer : List P
  waitingForPeer : Option P
  /-- The time of the event, if it is scheduled. -/
  releaseEvent : Option Nat
  draining : Bool
  curTick : Nat
  deriving DecidableEq

namespace Layer

variable {P : Type}

def occupyLayer (busyUntil : Nat) (l : Layer P) : Sim (Layer P) := do
  simAssert (decide (l.state = .busy))
  simAssert (decide (busyUntil ≠ 0))
  simAssert (decide (l.curTick ≤ busyUntil) && l.releaseEvent.isNone)
  pure { l with releaseEvent := some busyUntil }

def tryTiming [DecidableEq P] (srcPort : P) (l : Layer P) : Sim (Bool × Layer P) :=
  if l.state = .busy ∨ l.waitingForPeer.isSome then do
    simAssert (decide (srcPort ∉ l.waitingForLayer))
    pure (false, { l with waitingForLayer := l.waitingForLayer ++ [srcPort] })
  else pure (true, { l with state := .busy })

def succeededTiming (busyTime : Nat) (l : Layer P) : Sim (Layer P) := do
  simAssert (decide (l.state = .busy))
  l.occupyLayer busyTime

def failedTiming (srcPort : P) (busyTime : Nat) (l : Layer P) : Sim (Layer P) := do
  simAssert l.waitingForPeer.isNone
  simAssert (decide (l.state = .busy))
  { l with waitingForPeer := some srcPort }.occupyLayer busyTime

/-- Up to the call of `sendRetry`, with the port that it is for. -/
def retryWaiting (l : Layer P) : Sim (P × Layer P) := do
  let retryingPort ← simSome l.waitingForLayer.head?
  simAssert (decide (l.state = .idle))
  pure (retryingPort, { l with state := .retry, waitingForLayer := l.waitingForLayer.tail })

/-- After `sendRetry` has returned. -/
def retryReturned (clock : Clock) (l : Layer P) : Sim (Layer P) :=
  if l.state = .retry then { l with state := .busy }.occupyLayer (clock.edge l.curTick) else pure l

/-- The part of a function that may end in `retryWaiting`. -/
def retryOne (l : Layer P) : Sim (Option P × Layer P) := do
  let (p, l) ← l.retryWaiting
  pure (some p, l)

def releaseLayer (l : Layer P) : Sim (Option P × Layer P) := do
  simAssert (decide (l.state = .busy))
  simAssert l.releaseEvent.isNone
  let l := { l with state := .idle }
  if l.waitingForLayer ≠ [] then
    if l.waitingForPeer.isNone then l.retryOne else pure (none, l)
  else if l.waitingForPeer.isNone ∧ l.draining then
    -- the drain manager is told
    pure (none, { l with draining := false })
  else pure (none, l)

def recvRetry (l : Layer P) : Sim (Option P × Layer P) := do
  let p ← simSome l.waitingForPeer
  let l := { l with waitingForLayer := p :: l.waitingForLayer, waitingForPeer := none }
  if l.state = .idle then l.retryOne
  else do
    simAssert (decide (l.state = .busy))
    pure (none, l)

def init (draining : Bool) (curTick : Nat) : Layer P := ⟨.idle, [], none, none, draining, curTick⟩

end Layer

inductive Note (P : Type) where
  | refused (p : P)
  | peerRefused (p : P)
  | peerReady
  | retried (p : P)
  deriving DecidableEq

structure Line (P : Type) where
  line : List P
  blocked : Option P
  first : Option P

namespace Line

variable {P : Type} [DecidableEq P]

def next (l : Line P) : Option P := l.first <|> l.line.head?

def note (l : Line P) : Note P → Option (Line P)
  | .refused p => some { l with line := l.line ++ [p] }
  | .peerRefused p => some { l with blocked := some p }
  | .peerReady => some { l with blocked := none, first := l.blocked }
  | .retried p =>
    if l.next = some p then
      match l.first with
      | some _ => some { l with first := none }
      | none => some { l with line := l.line.tail }
    else none

def replay (log : List (Note P)) : Option (Line P) := log.foldlM note ⟨[], none, none⟩

end Line

/-- A layer with the port whose packet is being forwarded, and whether a call of `sendRetry`
is under way. -/
structure LayerRun (P : Type) where
  layer : Layer P
  forwarding : Option P
  retrying : Bool
  log : List (Note P)

namespace LayerRun

variable {P : Type} [DecidableEq P]

inductive Action (P : Type) where
  | tryTiming (srcPort : P)
  | succeededTiming (busyTime : Nat)
  | failedTiming (srcPort : P) (busyTime : Nat)
  | recvRetry
  | releaseLayer
  | retryReturned
  | passTime (tick : Nat)

def init (draining : Bool) (curTick : Nat) : LayerRun P := ⟨.init draining curTick, none, false, []⟩

/-- A call that may have ended in `sendRetry`. -/
def called (s : LayerRun P) (notes : List (Note P)) : Option P × Layer P → LayerRun P
  | (none, l) => { s with layer := l, log := s.log ++ notes }
  | (some p, l) =>
    { s with layer := l, retrying := true, log := s.log ++ notes ++ [Note.retried p] }

def step (clock : Clock) (s : LayerRun P) : Action P → Sim (LayerRun P)
  | .tryTiming p => do
    let (granted, l) ← s.layer.tryTiming p
    pure (if granted then { s with layer := l, forwarding := some p }
      else { s with layer := l, log := s.log ++ [Note.refused p] })
  | .succeededTiming busyTime => do
    let l ← s.layer.succeededTiming busyTime
    pure { s with layer := l, forwarding := none }
  | .failedTiming p busyTime => do
    let l ← s.layer.failedTiming p busyTime
    pure { s with layer := l, forwarding := none, log := s.log ++ [Note.peerRefused p] }
  | .recvRetry => do
    let r ← s.layer.recvRetry
    pure (s.called [Note.peerReady] r)
  | .releaseLayer => do
    let r ← { s.layer with releaseEvent := none }.releaseLayer
    pure (s.called [] r)
  | .retryReturned => do
    let l ← s.layer.retryReturned clock
    pure { s with layer := l, retrying := false }
  | .passTime tick => .ok { s with layer := { s.layer with curTick := tick } }

def BetweenCalls (s : LayerRun P) : Prop := s.forwarding = none ∧ s.retrying = false

def Until (s : LayerRun P) (busyTime : Nat) : Prop := busyTime ≠ 0 ∧ s.layer.curTick ≤ busyTime

def Enabled (s : LayerRun P) : Action P → Prop
  | .tryTiming p => p ∉ s.layer.waitingForLayer ∧ s.layer.waitingForPeer ≠ some p ∧
      s.forwarding ≠ some p
  | .succeededTiming busyTime => s.forwarding ≠ none ∧ s.Until busyTime
  | .failedTiming p busyTime => s.forwarding = some p ∧ s.Until busyTime
  | .recvRetry => s.layer.waitingForPeer ≠ none
  | .releaseLayer => s.BetweenCalls ∧ s.layer.releaseEvent = some s.layer.curTick
  | .retryReturned => s.forwarding = none ∧ s.retrying = true
  | .passTime tick => s.BetweenCalls ∧ s.layer.curTick ≤ tick ∧
      ∀ e ∈ s.layer.releaseEvent, tick ≤ e

instance {s : LayerRun P} : (a : Action P) → Decidable (s.Enabled a)
  | .tryTiming _ => inferInstanceAs (Decidable (_ ∧ _ ∧ _))
  | .succeededTiming _ => inferInstanceAs (Decidable (_ ∧ _ ∧ _))
  | .failedTiming _ _ => inferInstanceAs (Decidable (_ ∧ _ ∧ _))
  | .recvRetry => inferInstanceAs (Decidable (_ ≠ _))
  | .releaseLayer => inferInstanceAs (Decidable ((_ ∧ _) ∧ _))
  | .retryReturned => inferInstanceAs (Decidable (_ ∧ _))
  | .passTime _ => inferInstanceAs (Decidable ((_ ∧ _) ∧ _ ∧ _))

end LayerRun

end Gem5.Mem
