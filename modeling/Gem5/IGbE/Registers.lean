import Gem5.IGbE.Interrupts
import Mathlib.Data.BitVec

/-!
# Registers of the queues

A register access first goes through a list of fixed addresses, then through a chain of tests,
one for each family of per-queue registers. What the descriptor caches and contexts of a queue do
with an access is a parameter; they belong to one queue each.
-/

namespace Gem5.IGbE.Registers

inductive Family where
  | rdbal | rdbah | rdlen | srrctl | rdh | rxctl | rdt | rxdctl | rqdpc | rxM2func | rxDta
  | tdbal | tdbah | tdlen | tdh | txdcaCtl | tdt | txdctl | tdwbal | tdwbah | txM2func | txDta
  deriving DecidableEq

def maxQueueSize : Nat := 16

def queueAddr (first rest n : Nat) : Nat := if n < 4 then first + n * 0x100 else rest + n * 0x40

def Family.addr : Family → Nat → Nat
  | .rdbal => queueAddr 0x02800 0x0C000
  | .rdbah => queueAddr 0x02804 0x0C004
  | .rdlen => queueAddr 0x02808 0x0C008
  | .srrctl => queueAddr 0x0280C 0x0C00C
  | .rdh => queueAddr 0x02810 0x0C010
  | .rxctl => queueAddr 0x02814 0x0C014
  | .rdt => queueAddr 0x02818 0x0C018
  | .rxdctl => queueAddr 0x02828 0x0C028
  | .rqdpc => queueAddr 0x02830 0x0C030
  | .rxM2func => queueAddr 0x02840 0x0C040
  | .rxDta => queueAddr 0x028C0 0x0C0C0
  | .tdbal => queueAddr 0x03800 0x0E000
  | .tdbah => queueAddr 0x03804 0x0E004
  | .tdlen => queueAddr 0x03808 0x0E008
  | .tdh => queueAddr 0x03810 0x0E010
  | .txdcaCtl => queueAddr 0x03814 0x0E014
  | .tdt => queueAddr 0x03818 0x0E018
  | .txdctl => queueAddr 0x03828 0x0E028
  | .tdwbal => queueAddr 0x03838 0x0E038
  | .tdwbah => queueAddr 0x0383C 0x0E03C
  | .txM2func => queueAddr 0x03840 0x0E040
  | .txDta => queueAddr 0x038C0 0x0E0C0

def isRegisterAddress (f : Family) (daddr numQueues : Nat) : Option Nat :=
  (List.range numQueues).find? (fun i => daddr == f.addr i)

inductive Access where
  | read | write
  deriving DecidableEq

/-- The addresses that the `switch` statements name: control, status, EEPROM and PHY access,
interrupts, receive and transmit control, wake-up, flow control, timers, checksums, semaphores. -/
def fixedAddrs : Access → List Nat
  | .read =>
    [0x00000, 0x00008, 0x00010, 0x00014, 0x00018, 0x00020, 0x000C0, 0x01580, 0x000C4, 0x00100,
      0x00170, 0x00400, 0x05818, 0x01000, 0x05800, 0x05808, 0x05810, 0x00e00, 0x02160, 0x02168,
      0x02820, 0x0282C, 0x03820, 0x0382C, 0x05000, 0x05004, 0x05008, 0x05820, 0x05B50, 0x05B54,
      0x05B5C, 0x000D0]
  | .write =>
    [0x00000, 0x00018, 0x00008, 0x00010, 0x00014, 0x00020, 0x000C0, 0x000C4, 0x000C8, 0x000D0,
      0x000D8, 0x000E0, 0x00100, 0x00170, 0x00400, 0x05818, 0x01000, 0x05800, 0x05808, 0x05810,
      0x00e00, 0x00028, 0x0002C, 0x00030, 0x00038, 0x00458, 0x00410, 0x01700, 0x02160, 0x02168,
      0x02820, 0x0282C, 0x03820, 0x0382C, 0x05000, 0x05004, 0x05008, 0x05820, 0x05B50, 0x05B5C]

def testOrder : Access → List Family
  | .read =>
    [.rdbal, .rdbah, .rdlen, .srrctl, .rdh, .rdt, .rxM2func, .rxdctl, .tdbal, .tdbah, .tdlen,
      .tdh, .txdcaCtl, .tdt, .txM2func, .txdctl, .tdwbal, .tdwbah]
  | .write =>
    [.rdbal, .rdbah, .rdlen, .srrctl, .rdh, .rdt, .rxM2func, .rxDta, .rxdctl, .tdbal, .tdbah,
      .tdlen, .tdh, .txdcaCtl, .tdt, .txM2func, .txDta, .txdctl, .tdwbal, .tdwbah]

def inRange (val base len : Nat) : Bool := base ≤ val && val < base + len

def ignored (access : Access) (daddr : Nat) : Bool :=
  inRange daddr 0x05600 (128 * 4) || inRange daddr 0x05400 (24 * 8) ||
    inRange daddr 0x05200 (128 * 4) || (access = .read && inRange daddr 0x04000 0x228)

inductive Target where
  | fixed (daddr : Nat)
  | queue (family : Family) (queueid : Nat)
  | reta (index : Nat)
  | rssrk (index : Nat)
  | ignored
  | unknown
  deriving DecidableEq

def target (access : Access) (numQueues daddr : Nat) : Target :=
  if daddr ∈ fixedAddrs access then .fixed daddr
  else
    match (testOrder access).findSome? fun f =>
      (isRegisterAddress f daddr numQueues).map (f, ·) with
    | some (f, queueid) => .queue f queueid
    | none =>
      match (List.range (128 / 4)).find? (fun i => daddr == 0x05C00 + i * 4) with
      | some index => .reta index
      | none =>
        match (List.range 10).find? (fun i => daddr == 0x05C80 + i * 4) with
        | some index => .rssrk index
        | none => if ignored access daddr then .ignored else .unknown

structure QueueRegs where
  rdba : BitVec 64
  rdlen : BitVec 32
  srrctl : BitVec 32
  rdh : BitVec 32
  rdt : BitVec 32
  rxdctl : BitVec 32
  tdba : BitVec 64
  tdlen : BitVec 32
  tdh : BitVec 32
  txdcaCtl : BitVec 32
  tdt : BitVec 32
  txdctl : BitVec 32
  tdwba : BitVec 64
  deriving DecidableEq

def lowHalf (x : BitVec 64) : BitVec 32 := x.extractLsb' 0 32

def highHalf (x : BitVec 64) : BitVec 32 := x.extractLsb' 32 32

def QueueRegs.get (r : QueueRegs) : Family → Option (BitVec 32)
  | .rdbal => some (lowHalf r.rdba)
  | .rdbah => some (highHalf r.rdba)
  | .rdlen => some r.rdlen
  | .srrctl => some r.srrctl
  | .rdh => some r.rdh
  | .rdt => some r.rdt
  | .rxdctl => some r.rxdctl
  | .tdbal => some (lowHalf r.tdba)
  | .tdbah => some (highHalf r.tdba)
  | .tdlen => some r.tdlen
  | .tdh => some r.tdh
  | .txdcaCtl => some r.txdcaCtl
  | .tdt => some r.tdt
  | .txdctl => some r.txdctl
  | .tdwbal => some (lowHalf r.tdwba)
  | .tdwbah => some (highHalf r.tdwba)
  | .rxctl | .rqdpc | .rxM2func | .rxDta | .txM2func | .txDta => none

variable {ρ τ ν : Type}

structure Queue (ρ τ ν : Type) where
  regs : QueueRegs
  rxDescCache : ρ
  txDescCache : τ
  txM2funcContext : ν

structure Ops (ρ τ ν : Type) where
  rxAreaChanged : ρ → Sim ρ
  rxFetchDescriptors : QueueRegs → ρ → Sim ρ
  txAreaChanged : τ → Sim τ
  txFetchDescriptors : QueueRegs → τ → Sim τ
  completionWriteback : BitVec 64 → Bool → τ → τ
  writeM2funcPacket : List UInt8 → ν → Sim ν
  /-- A fixed register may concern all queues. -/
  writeFixed : Nat → BitVec 32 → (Nat → Queue ρ τ ν) → Sim (Nat → Queue ρ τ ν)

structure Device (ρ τ ν : Type) where
  numQueues : Nat
  commType : CommunicationType
  enableDTA : Bool
  /-- The device is not being drained. -/
  running : Bool
  queues : Nat → Queue ρ τ ν

def registerValue (data : List UInt8) : BitVec 32 :=
  match data with
  | [a, b, c, d] => d.toBitVec ++ c.toBitVec ++ b.toBitVec ++ a.toBitVec
  | _ => 0

namespace Queue

def rxChanged (ops : Ops ρ τ ν) (commType : CommunicationType) (q : Queue ρ τ ν) :
    Sim (Queue ρ τ ν) := do
  if commType = .ring then
    let rxDescCache ← ops.rxAreaChanged q.rxDescCache
    return { q with rxDescCache }
  else return q

def txChanged (ops : Ops ρ τ ν) (commType : CommunicationType) (q : Queue ρ τ ν) :
    Sim (Queue ρ τ ν) := do
  if commType = .ring then
    let txDescCache ← ops.txAreaChanged q.txDescCache
    return { q with txDescCache }
  else return q

def completion (ops : Ops ρ τ ν) (commType : CommunicationType) (q : Queue ρ τ ν) :
    Queue ρ τ ν :=
  if commType = .ring then
    { q with
      txDescCache := ops.completionWriteback (q.regs.tdwba &&& ~~~1#64)
        (decide (q.regs.tdwba &&& 1#64 ≠ 0)) q.txDescCache }
  else q

def write (ops : Ops ρ τ ν) (commType : CommunicationType) (enableDTA running : Bool)
    (f : Family) (data : List UInt8) (q : Queue ρ τ ν) : Sim (Queue ρ τ ν) :=
  let val := registerValue data
  match f with
  | .rdbal => rxChanged ops commType
      { q with regs.rdba := highHalf q.regs.rdba ++ (val &&& ~~~15#32) }
  | .rdbah => rxChanged ops commType { q with regs.rdba := val ++ lowHalf q.regs.rdba }
  | .rdlen => rxChanged ops commType { q with regs.rdlen := val &&& ~~~127#32 }
  | .srrctl => .ok { q with regs.srrctl := val }
  | .rdh => rxChanged ops commType { q with regs.rdh := val }
  | .rdt => do
    let q := { q with regs.rdt := val }
    if commType = .ring ∧ running then
      let rxDescCache ← ops.rxFetchDescriptors q.regs q.rxDescCache
      return { q with rxDescCache }
    else return q
  | .rxM2func =>
    if commType = .m2func then .ok q
    else .error (.panic "Invalid communication type with - RXM2FUNC write!!!\n")
  | .rxDta => .ok q
  | .rxdctl => .ok { q with regs.rxdctl := val }
  | .tdbal => txChanged ops commType
      { q with regs.tdba := highHalf q.regs.tdba ++ (val &&& ~~~15#32) }
  | .tdbah => txChanged ops commType { q with regs.tdba := val ++ lowHalf q.regs.tdba }
  | .tdlen => txChanged ops commType { q with regs.tdlen := val &&& ~~~127#32 }
  | .tdh => txChanged ops commType { q with regs.tdh := val }
  | .txdcaCtl =>
    if val.getLsbD 5 then .error (.panic "No support for DCA\n")
    else .ok { q with regs.txdcaCtl := val }
  | .tdt => do
    let q := { q with regs.tdt := val }
    if commType = .ring ∧ running then
      let txDescCache ← ops.txFetchDescriptors q.regs q.txDescCache
      return { q with txDescCache }
    else return q
  | .txM2func =>
    if commType = .m2func then
      if enableDTA then
        .error (.panic "If DTA is enabled, TXM2func WR request cannot be come over here!\n")
      else do
        let txM2funcContext ← ops.writeM2funcPacket data q.txM2funcContext
        return { q with txM2funcContext }
    else .error (.panic "Invalid communication type with - TXM2FUNC write!!!\n")
  | .txDta => .ok q
  | .txdctl => .ok { q with regs.txdctl := val }
  | .tdwbal => .ok (completion ops commType
      { q with regs.tdwba := q.regs.tdwba &&& ~~~0xFFFFFFFF#64 ||| val.setWidth 64 })
  | .tdwbah => .ok (completion ops commType
      { q with regs.tdwba := q.regs.tdwba &&& 0xFFFFFFFF#64 ||| val.setWidth 64 <<< 32 })
  | .rxctl | .rqdpc => .error (.panic "Write request to unknown register number")

end Queue

namespace Device

def write (ops : Ops ρ τ ν) (d : Device ρ τ ν) (daddr : Nat) (data : List UInt8) :
    Sim (Device ρ τ ν) := do
  simAssert (d.numQueues ≤ maxQueueSize)
  match target .write d.numQueues daddr with
  | .fixed a =>
    let queues ← ops.writeFixed a (registerValue data) d.queues
    return { d with queues }
  | .queue f queueid =>
    let q ← (d.queues queueid).write ops d.commType d.enableDTA d.running f data
    return { d with queues := Function.update d.queues queueid q }
  | .reta _ | .rssrk _ | .ignored => return d
  | .unknown => .error (.panic "Write request to unknown register number")

end Device

end Gem5.IGbE.Registers
