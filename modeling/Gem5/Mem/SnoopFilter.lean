import Gem5.Mem.MemCmd
import Gem5.Shared.Sim
import Gem5.Shared.Reachability
import Mathlib.Data.Finmap

/-!
# The snoop filter

For each cache line the ports with an outstanding request and the ports that may hold a copy,
as masks with one bit for each snooping port. Statistics and latencies are left out.
-/

namespace Gem5.Mem

structure ResponsePort where
  id : Nat
  isSnooping : Bool
  deriving DecidableEq

structure SnoopPorts where
  cpuSidePorts : List ResponsePort
  localResponsePortIds : List (Option Nat)
  deriving DecidableEq

namespace SnoopPorts

/-- The ports from number `id` on. -/
def track : List ResponsePort → Nat → SnoopPorts → Nat × SnoopPorts
  | [], id, s => (id, s)
  | p :: rest, id, s =>
    if p.isSnooping then
      track rest (id + 1)
        ⟨s.cpuSidePorts ++ [p], s.localResponsePortIds.set p.id (some id)⟩
    else track rest id s

def setCPUSidePorts (ports : List ResponsePort) : Sim SnoopPorts :=
  let (id, s) := track ports 0 ⟨[], List.replicate ports.length none⟩
  if 256 < id then .error (.panic "Snoop filter only supports 256 snooping ports") else pure s

def localId (s : SnoopPorts) (p : ResponsePort) : Nat :=
  (s.localResponsePortIds[p.id]?.join).getD 256

def portToMask (s : SnoopPorts) (p : ResponsePort) : BitVec 256 :=
  if !p.isSnooping then 0 else 1#256 <<< s.localId p

def maskToPortList (s : SnoopPorts) (mask : BitVec 256) : List ResponsePort :=
  s.cpuSidePorts.filter fun p => mask &&& s.portToMask p ≠ 0

end SnoopPorts

structure SnoopItem where
  requested : BitVec 256
  holder : BitVec 256
  deriving DecidableEq

namespace SnoopItem

def null : SnoopItem := ⟨0, 0⟩

def isNull (item : SnoopItem) : Bool := item.requested ||| item.holder == 0

end SnoopItem

abbrev SnoopFilterCache : Type := Finmap fun _ : BitVec 64 => SnoopItem

structure SnoopFilter where
  isForL3X : Bool
  linesize : BitVec 32
  maxEntryCount : Nat
  ports : SnoopPorts
  cachedLocations : SnoopFilterCache
  -- the entry and the saved item of the last request that was looked up
  it : Option (BitVec 64)
  retryItem : SnoopItem

namespace SnoopFilter

def lineAddr (addr : BitVec 64) (isSecure : Bool) (f : SnoopFilter) : BitVec 64 :=
  (addr &&& ~~~(f.linesize - 1).setWidth 64) ||| if isSecure then 1 else 0

def lineOf (pkt : MemPacket) (f : SnoopFilter) : BitVec 64 := f.lineAddr pkt.addr pkt.isSecure

def eraseIfNullEntry (line : BitVec 64) (m : SnoopFilterCache) : SnoopFilterCache :=
  match m.lookup line with
  | some item => if item.isNull then m.erase line else m
  | none => m

def allocates (pkt : MemPacket) (port : ResponsePort) : Bool :=
  !pkt.isUncacheable && port.isSnooping && pkt.fromCache

def destMask (pkt : MemPacket) (f : SnoopFilter) : BitVec 256 :=
  if pkt.isPrefetchHint && f.isForL3X && decide (-1 < pkt.ddioPrefetchDestination) then
    1#256 <<< pkt.ddioPrefetchDestination.toNat
  else 0

def mark (pkt : MemPacket) (reqPort : BitVec 256) (item : SnoopItem) : Sim SnoopItem :=
  if pkt.needsResponse then
    if !pkt.cacheResponding then
      if item.requested &&& reqPort ≠ 0 then .error (.panic "double request")
      else pure { item with requested := item.requested ||| reqPort }
    else if item.holder &&& reqPort = 0 then .error (.panic "Need to hold the value!")
    else pure item
  else do
    simAssert pkt.isEviction
    if item.holder &&& reqPort = 0 ∧ pkt.isBlockIO = false then
      .error (.panic "requester is not a holder")
    else if !pkt.isBlockCached then pure { item with holder := item.holder &&& ~~~reqPort }
    else pure item

def newItem (allocate : Bool) (pkt : MemPacket) (reqPort : BitVec 256) (item : SnoopItem) :
    Sim SnoopItem := if allocate then mark pkt reqPort item else pure item

def lookupRequest (pkt : MemPacket) (port : ResponsePort) (f : SnoopFilter) :
    Sim (List ResponsePort × SnoopFilter) :=
  let allocate := allocates pkt port
  let line := f.lineOf pkt
  let reqPort := f.ports.portToMask port
  let found := f.cachedLocations.lookup line
  if found = none ∧ allocate = false then pure ([], { f with it := none })
  else do
    let item := found.getD .null
    let interested := item.holder ||| item.requested ||| f.destMask pkt
    let item' ← newItem allocate pkt reqPort item
    pure (f.ports.maskToPortList (interested &&& ~~~reqPort ||| f.destMask pkt),
      { f with
        cachedLocations := f.cachedLocations.insert line item'
        it := some line
        retryItem := item })

def finishRequest (willRetry : Bool) (addr : BitVec 64) (isSecure : Bool) (f : SnoopFilter) :
    Sim SnoopFilter :=
  match f.it with
  | none => pure f
  | some line => do
    simAssert (decide (line = f.lineAddr addr isSecure))
    let m := if willRetry then f.cachedLocations.insert line f.retryItem else f.cachedLocations
    pure { f with cachedLocations := eraseIfNullEntry line m }

def lookupSnoop (pkt : MemPacket) (f : SnoopFilter) : Sim (List ResponsePort × SnoopFilter) := do
  simAssert pkt.isRequest
  let line := f.lineOf pkt
  match f.cachedLocations.lookup line with
  | none =>
    if f.maxEntryCount ≤ f.cachedLocations.keys.card then
      .error (.panic "snoop filter exceeded capacity")
    else pure ([], f)
  | some item =>
    simAssert (pkt.isWriteback || pkt.isUncacheable || pkt.isInvalidate == pkt.needsWritable ||
      pkt.isCacheMaintenance)
    let m :=
      -- early clear of the holders if no other request is going on
      if pkt.isInvalidate && item.requested == 0 then
        eraseIfNullEntry line (f.cachedLocations.insert line { item with holder := 0 })
      else f.cachedLocations
    pure (f.ports.maskToPortList (item.holder ||| item.requested), { f with cachedLocations := m })

def updateSnoopResponse (pkt : MemPacket) (rspPort reqPort : ResponsePort) (f : SnoopFilter) :
    Sim SnoopFilter := do
  simAssert pkt.isResponse
  simAssert pkt.cacheResponding
  if pkt.isUncacheable || !reqPort.isSnooping then pure f
  else do
    let line := f.lineOf pkt
    let rspMask := f.ports.portToMask rspPort
    let reqMask := f.ports.portToMask reqPort
    let item := (f.cachedLocations.lookup line).getD .null
    if item.holder &&& rspMask = 0 then .error (.panic "does not have the line")
    else if item.requested &&& reqMask = 0 then .error (.panic "missing the original request")
    else do
      simAssert (!pkt.isWriteback)
      let holder := if !pkt.hasSharers then 0 else item.holder
      let item : SnoopItem := ⟨item.requested &&& ~~~reqMask, holder ||| reqMask⟩
      simAssert (!item.isNull)
      pure { f with cachedLocations := f.cachedLocations.insert line item }

def updateSnoopForward (pkt : MemPacket) (f : SnoopFilter) : Sim SnoopFilter := do
  simAssert pkt.isResponse
  simAssert pkt.cacheResponding
  let line := f.lineOf pkt
  match f.cachedLocations.lookup line with
  | none => pure f
  | some item =>
    if !pkt.hasSharers then
      pure { f with cachedLocations :=
        eraseIfNullEntry line (f.cachedLocations.insert line { item with holder := 0 }) }
    else pure f

def updateResponse (pkt : MemPacket) (port : ResponsePort) (f : SnoopFilter) : Sim SnoopFilter := do
  simAssert pkt.isResponse
  if pkt.isUncacheable || !port.isSnooping then pure f
  else
    let line := f.lineOf pkt
    match f.cachedLocations.lookup line with
    | none => pure f
    | some item =>
      let mask := f.ports.portToMask port
      if item.requested &&& mask = 0 then .error (.panic "missing request bit")
      else
        let requested := item.requested &&& ~~~mask
        if pkt.isCacheMaintenance then
          let holder := if pkt.isInvalidate then item.holder &&& ~~~mask else item.holder
          pure { f with cachedLocations :=
            eraseIfNullEntry line (f.cachedLocations.insert line ⟨requested, holder⟩) }
        else do
          let item : SnoopItem := ⟨requested, item.holder ||| mask⟩
          simAssert (!item.isNull)
          pure { f with cachedLocations := f.cachedLocations.insert line item }

end SnoopFilter

inductive SnoopOp where
  | request (pkt : MemPacket) (port : ResponsePort) (willRetry : Bool)
  | snoop (pkt : MemPacket)
  | snoopResponse (pkt : MemPacket) (rspPort reqPort : ResponsePort)
  | snoopForward (pkt : MemPacket)
  | response (pkt : MemPacket) (port : ResponsePort)

structure SnoopRun where
  filter : SnoopFilter
  pending : List (BitVec 64 × ResponsePort)
  copies : List (BitVec 64 × ResponsePort)

namespace SnoopRun

def expectsAnswer (pkt : MemPacket) (port : ResponsePort) : Bool :=
  SnoopFilter.allocates pkt port && pkt.needsResponse && !pkt.cacheResponding

def afterRequest (pkt : MemPacket) (port : ResponsePort) (willRetry : Bool) (line : BitVec 64)
    (snooped : List ResponsePort) (c : BitVec 64 × ResponsePort) : Bool :=
  !(c.1 == line && (c.2 == port && pkt.isEviction && !pkt.isBlockCached && !willRetry ||
    pkt.isInvalidate && snooped.contains c.2))

def afterSnoopResponse (pkt : MemPacket) (reqPort : ResponsePort) (line : BitVec 64)
    (copies : List (BitVec 64 × ResponsePort)) : List (BitVec 64 × ResponsePort) :=
  if pkt.isUncacheable || !reqPort.isSnooping then copies
  else (line, reqPort) :: if pkt.hasSharers then copies else copies.filter fun c => c.1 ≠ line

def afterResponse (pkt : MemPacket) (port : ResponsePort) (line : BitVec 64) (s : SnoopRun) :
    List (BitVec 64 × ResponsePort) :=
  if pkt.isUncacheable || !s.pending.contains (line, port) then s.copies
  else if !pkt.isCacheMaintenance then (line, port) :: s.copies
  else if pkt.isInvalidate then s.copies.filter fun c => c ≠ (line, port)
  else s.copies

def step (s : SnoopRun) : SnoopOp → Sim SnoopRun
  | .request pkt port willRetry => do
    let (snooped, f) ← s.filter.lookupRequest pkt port
    let f ← f.finishRequest willRetry pkt.addr pkt.isSecure
    let line := s.filter.lineOf pkt
    let accepted := expectsAnswer pkt port && !willRetry
    pure ⟨f, if accepted then (line, port) :: s.pending else s.pending,
      s.copies.filter (afterRequest pkt port willRetry line snooped)⟩
  | .snoop pkt => do
    let (snooped, f) ← s.filter.lookupSnoop pkt
    let line := s.filter.lineOf pkt
    pure { s with
      filter := f
      copies := s.copies.filter fun c =>
        !(c.1 == line && pkt.isInvalidate && snooped.contains c.2) }
  | .snoopResponse pkt rspPort reqPort => do
    let f ← s.filter.updateSnoopResponse pkt rspPort reqPort
    let line := s.filter.lineOf pkt
    pure ⟨f, if pkt.isUncacheable then s.pending else s.pending.erase (line, reqPort),
      afterSnoopResponse pkt reqPort line s.copies⟩
  | .snoopForward pkt => do
    let f ← s.filter.updateSnoopForward pkt
    let line := s.filter.lineOf pkt
    pure { s with
      filter := f
      copies := if pkt.hasSharers then s.copies else s.copies.filter fun c => c.1 ≠ line }
  | .response pkt port => do
    let f ← s.filter.updateResponse pkt port
    let line := s.filter.lineOf pkt
    pure ⟨f, if pkt.isUncacheable then s.pending else s.pending.erase (line, port),
      s.afterResponse pkt port line⟩

def Known (ports : List ResponsePort) (_ : SnoopRun) : SnoopOp → Prop
  | .request _ port _ => port ∈ ports
  | .snoop _ => True
  | .snoopResponse _ rspPort reqPort => rspPort ∈ ports ∧ reqPort ∈ ports
  | .snoopForward _ => True
  | .response _ port => port ∈ ports

instance (ports : List ResponsePort) (s : SnoopRun) : (a : SnoopOp) → Decidable (s.Known ports a)
  | .request _ port _ => inferInstanceAs (Decidable (port ∈ ports))
  | .snoop _ => .isTrue trivial
  | .snoopResponse _ rspPort reqPort =>
    inferInstanceAs (Decidable (rspPort ∈ ports ∧ reqPort ∈ ports))
  | .snoopForward _ => .isTrue trivial
  | .response _ port => inferInstanceAs (Decidable (port ∈ ports))

structure Fresh (ports : List ResponsePort) (s : SnoopRun) : Prop where
  ids : ∀ p ∈ ports, p.id < ports.length
  nodup : (ports.map ResponsePort.id).Nodup
  ports : SnoopPorts.setCPUSidePorts ports = .ok s.filter.ports
  cachedLocations : s.filter.cachedLocations = ∅
  pending : s.pending = []
  copies : s.copies = []

end SnoopRun

end Gem5.Mem
