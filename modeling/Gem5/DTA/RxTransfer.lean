import Gem5.DTA.RxWorker
import Gem5.M2func.RxStream

/-!
# A received packet on its way to the host

One packet goes from the device's receive context through one worker to the buffer of
the host. `nicFlits` are the flits that the device makes of the packet; the worker takes
them one by one, sends DMA writes of a cache line, and the writes are done in any order.
-/

namespace Gem5.DTA

open IGbE Cells

def readAll (cfg : M2funcConfig) (env : RxEnv) :
    Nat → RxM2funcContext → Sim (List (List UInt8 × Bool))
  | 0, _ => pure []
  | fuel + 1, s =>
    match s.m2funcRxFifo with
    | [] => pure []
    | _ :: _ => do
      let (pkt, s) ← s.readM2funcPacket cfg env (RxM2funcContext.freshRequest cfg.flitSize 0 0)
      let rest ← readAll cfg env fuel s
      pure ((pkt.data, pkt.ddioHeader) :: rest)

def nicFlits (cfg : M2funcConfig) (env : RxEnv) (packet : EthPacket) :
    Sim (List (List UInt8 × Bool)) := do
  let s ← RxM2funcContext.construct.processRxPacket cfg env packet
  readAll cfg env (rxDescriptorSize + packet.length) s

structure RxTransfer where
  flits : List (List UInt8 × Bool)
  worker : DTARXWorker
  extraNeeded : Nat
  inFlight : List DmaWrite
  mem : Nat → UInt8

inductive RxTransferAct where
  | feed
  | work
  | complete (i : Nat)

namespace RxTransfer

def writeMem (d : DmaWrite) (mem : Nat → UInt8) : Nat → UInt8 := fun a =>
  if d.addr ≤ a then d.data[a - d.addr]?.getD (mem a) else mem a

def feed (cacheLineSize : Nat) (s : RxTransfer) : Sim RxTransfer :=
  match s.flits with
  | [] => pure s
  | (data, ddioHeader) :: rest => do
    let (extra, w) ← s.worker.processDTAResponse 64 cacheLineSize data ddioHeader
    pure { s with flits := rest, worker := w, extraNeeded := s.extraNeeded + extra }

def complete (i : Nat) (s : RxTransfer) : Sim RxTransfer :=
  match s.inFlight[i]? with
  | none => pure s
  | some d => do
    let w ← s.worker.handleDMACompletion d.data.length
    pure { s with worker := w, inFlight := s.inFlight.eraseIdx i, mem := writeMem d s.mem }

def step (cacheLineSize : Nat) (s : RxTransfer) : RxTransferAct → Sim RxTransfer
  | .feed => s.feed cacheLineSize
  | .work => do
    let (sent, w) ← s.worker.dtaWork cacheLineSize
    pure { s with worker := w, inFlight := s.inFlight ++ sent.toList }
  | .complete i => s.complete i

/-- A worker has been allocated for the buffer at `mbuf`. -/
def start (flits : List (List UInt8 × Bool)) (mbuf : Nat) (mem : Nat → UInt8) : RxTransfer where
  flits := flits
  worker := { DTARXWorker.idle with working := true, mbufAddr := mbuf }
  extraNeeded := 0
  inFlight := []
  mem := mem

abbrev Goes (cacheLineSize : Nat) (s t : RxTransfer) : Prop :=
  Reach (step cacheLineSize) (fun _ _ => True) s t

/-- The packet arrives: no assert fails; the worker knows that it has everything exactly
when it has the last flit; it asks for as many flits as there are; when it is free again
the packet is in the buffer; and it can always get there. -/
structure Delivers (cacheLineSize mbuf : Nat) (packet : EthPacket) (s : RxTransfer) : Prop where
  noAssert : ∀ {t}, Goes cacheLineSize s t → ∀ a, ∃ u, t.step cacheLineSize a = .ok u
  last : ∀ {t}, Goes cacheLineSize s t → t.worker.working = true →
    (t.worker.allPayloadReceived = true ↔ t.flits = [])
  freed : ∀ {t}, Goes cacheLineSize s t → t.worker.working = false → t.flits = []
  extra : ∀ {t}, Goes cacheLineSize s t → t.flits = [] → s.flits.length = 1 + t.extraNeeded
  written : ∀ {t}, Goes cacheLineSize s t → t.worker.working = false →
    ∀ i, packet.data[i]? = (if i < packet.length then some (t.mem (mbuf + i)) else none)
  finishes : ∀ {t}, Goes cacheLineSize s t → ∃ u, Goes cacheLineSize t u ∧
    u.worker.working = false

end RxTransfer

def RoundTrip (cfg : M2funcConfig) (env : RxEnv) (cacheLineSize : Nat) (packet : EthPacket) :
    Prop :=
  ∃ flits, nicFlits cfg env packet = .ok flits ∧
    ∀ mbuf mem, mbuf ≠ 0 →
      (RxTransfer.start flits mbuf mem).Delivers cacheLineSize mbuf packet

end Gem5.DTA
