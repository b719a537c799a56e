import Gem5.Shared.BinnedList
import Gem5.Shared.Sim
import Mathlib.Data.Prod.Lex

/-!
# The event queue

Events are objects with pointers to each other: `nextBin` leads from bin to bin, where a
bin holds the events of one time and priority, and `nextInBin` leads down the stack of a
bin. The objects are numbered below `n`. Where the code would follow pointers for ever,
or a null pointer, the model stops with `outOfBounds`.
-/

namespace Gem5.Events

open LinkedList BinnedList

structure Event (n : Nat) where
  when : Nat
  priority : Int
  nextBin : Option (Fin n)
  nextInBin : Option (Fin n)
  scheduled : Bool
  squashed : Bool
  onQueue : Bool

structure EventQueue (n : Nat) where
  head : Option (Fin n)
  curTick : Nat
  events : Fin n → Event n

namespace Event

variable {n : Nat}

def construct (priority : Int) : Event n where
  when := 0
  priority := priority
  nextBin := none
  nextInBin := none
  scheduled := false
  squashed := false
  onQueue := false

def lt (l r : Event n) : Bool :=
  decide (l.when < r.when) || (l.when == r.when && decide (l.priority < r.priority))

def le (l r : Event n) : Bool :=
  decide (l.when < r.when) || (l.when == r.when && decide (l.priority ≤ r.priority))

def beq (l r : Event n) : Bool := l.when == r.when && l.priority == r.priority

def key (e : Event n) : Nat ×ₗ Int := toLex (e.when, e.priority)

theorem lt_iff {l r : Event n} : l.lt r = true ↔ l.key < r.key := by
  simp [lt, key, Prod.Lex.toLex_lt_toLex]

theorem le_iff {l r : Event n} : l.le r = true ↔ l.key ≤ r.key := by
  simp [le, key, Prod.Lex.toLex_le_toLex]

theorem beq_iff {l r : Event n} : l.beq r = true ↔ l.key = r.key := by
  simp [beq, key]

end Event

namespace EventQueue

variable {n : Nat}

def construct (priority : Fin n → Int) : EventQueue n where
  head := none
  curTick := 0
  events := fun e => Event.construct (priority e)

def modify (e : Fin n) (f : Event n → Event n) (q : EventQueue n) : EventQueue n :=
  { q with events := Function.update q.events e (f (q.events e)) }

def setNextBin (e : Fin n) (p : Option (Fin n)) : EventQueue n → EventQueue n :=
  modify e fun x => { x with nextBin := p }

def setNextInBin (e : Fin n) (p : Option (Fin n)) : EventQueue n → EventQueue n :=
  modify e fun x => { x with nextInBin := p }

/-- The event becomes the top of a bin, which is new or the one of `curr`. -/
def insertBefore (event : Fin n) (curr : Option (Fin n)) (q : EventQueue n) : EventQueue n :=
  match curr with
  | none => (q.setNextBin event none).setNextInBin event none
  | some c =>
    if (q.events event).lt (q.events c) then
      (q.setNextBin event (some c)).setNextInBin event none
    else (q.setNextBin event (q.events c).nextBin).setNextInBin event (some c)

def findBin (event head : Fin n) (q : EventQueue n) : Sim (Fin n × Option (Fin n)) :=
  match walk (fun a => (q.events a).nextBin) (fun c => (q.events c).lt (q.events event)) (n + 1)
      head (q.events head).nextBin with
  | some found => .ok found
  | none => .error .outOfBounds

def insert (event : Fin n) (q : EventQueue n) : Sim (EventQueue n) :=
  match q.head with
  | none => pure { q.insertBefore event none with head := some event }
  | some head =>
    if (q.events event).le (q.events head) then
      pure { q.insertBefore event (some head) with head := some event }
    else do
      let (prev, curr) ← q.findBin event head
      pure ((q.insertBefore event curr).setNextBin prev (some event))

def removeItem (event top : Fin n) (q : EventQueue n) : Sim (Option (Fin n) × EventQueue n) :=
  if event = top then
    match (q.events top).nextInBin with
    | none => pure ((q.events top).nextBin, q)
    | some next => pure (some next, q.setNextBin next (q.events top).nextBin)
  else
    match walk (fun a => (q.events a).nextInBin) (fun c => decide (event ≠ c)) (n + 1)
        top (q.events top).nextInBin with
    | some (curr, some next) => pure (some top, q.setNextInBin curr (q.events next).nextInBin)
    | some (_, none) => .error (.panic "event not found!")
    | none => .error .outOfBounds

/-- The event is removed from the bin `curr`, which comes after `prev`. -/
def removeBehind (event prev : Fin n) (curr : Option (Fin n)) (q : EventQueue n) :
    Sim (EventQueue n) :=
  match curr with
  | none => .error (.panic "event not found!")
  | some curr =>
    if (q.events curr).beq (q.events event) then do
      let (top, q) ← q.removeItem event curr
      pure (q.setNextBin prev top)
    else .error (.panic "event not found!")

def removeFrom (event head : Fin n) (q : EventQueue n) : Sim (EventQueue n) :=
  if (q.events head).beq (q.events event) then do
    let (top, q) ← q.removeItem event head
    pure { q with head := top }
  else do
    let (prev, curr) ← q.findBin event head
    q.removeBehind event prev curr

def remove (event : Fin n) (q : EventQueue n) : Sim (EventQueue n) :=
  match q.head with
  | none => .error (.panic "event not found!")
  | some head => do
    simAssert (q.events event).onQueue
    q.removeFrom event head

def setWhen (event : Fin n) (when : Nat) : EventQueue n → EventQueue n :=
  modify event fun x => { x with when := when, onQueue := true }

def schedule (event : Fin n) (when : Nat) (q : EventQueue n) : Sim (EventQueue n) := do
  simAssert (decide (q.curTick ≤ when))
  simAssert (!(q.events event).scheduled)
  let q ← (q.setWhen event when).insert event
  pure (q.modify event fun x => { x with scheduled := true })

def deschedule (event : Fin n) (q : EventQueue n) : Sim (EventQueue n) := do
  simAssert (q.events event).scheduled
  let q ← q.remove event
  pure (q.modify event fun x => { x with squashed := false, scheduled := false })

def removeScheduled (event : Fin n) (q : EventQueue n) : Sim (EventQueue n) :=
  if (q.events event).scheduled then q.remove event else pure q

def reschedule (event : Fin n) (when : Nat) (always : Bool) (q : EventQueue n) :
    Sim (EventQueue n) := do
  simAssert (decide (q.curTick ≤ when))
  simAssert (always || (q.events event).scheduled)
  let q ← q.removeScheduled event
  let q ← (q.setWhen event when).insert event
  pure (q.modify event fun x => { x with squashed := false, scheduled := true })

def popHead (event : Fin n) (q : EventQueue n) : EventQueue n :=
  match (q.events event).nextInBin with
  | some next => { q.setNextBin next (q.events event).nextBin with head := some next }
  | none => { q with head := (q.events event).nextBin }

/-- The event that is serviced, and the queue when its `process` starts. What `process`
does to the queue are further operations. -/
def serviceOne (q : EventQueue n) : Sim (Fin n × EventQueue n) :=
  match q.head with
  | none => .error .outOfBounds
  | some event =>
    if (q.events event).squashed then
      pure (event, (q.popHead event).modify event fun x =>
        { x with scheduled := false, squashed := false })
    else
      pure (event, { (q.popHead event).modify event (fun x => { x with scheduled := false }) with
        curTick := (q.events event).when })

def squash (event : Fin n) : EventQueue n → EventQueue n :=
  modify event fun x => { x with squashed := true }

end EventQueue

end Gem5.Events
