import Gem5.M2func.TxSteps
import Gem5.Shared.Reachability
import Gem5.Shared.Totals

/-!
# Between two packets a transmit context is idle

The queues of a device share one `txFifo`. `Settled` is what a context is between two
calls of its state machine: idle, or with a packet in progress for which the fifo has
bytes reserved. A context descriptor or a length of zero leaves a context that is neither.
-/

namespace Gem5.IGbE

open List

def Headers.Accepting (h : Headers) : Prop :=
  ∀ ixsm txsm data, ∃ bytes, h.txM2funcChecksum ixsm txsm data = .ok bytes

namespace TxM2funcContext

variable {h : Headers} {s t : TxM2funcContext} {f g : PacketFifo} {p q : EthPacketData}
  {data chunk : List UInt8} {rest : List (List UInt8)} {candidate : Bool} {n : Nat}

structure Consistent (s : TxM2funcContext) : Prop where
  idle : s.txPacket = none →
    s.txDesc = 0 ∧ s.ethPktSize = 0 ∧ s.receivedPktSize = 0 ∧ s.pktDone = false
  busy : s.txPacket ≠ none → 0 < s.receivedPktSize ∧ s.receivedPktSize ≤ s.ethPktSize ∧
    (s.pktDone = true ↔ s.receivedPktSize = s.ethPktSize)

structure Settled (s : TxM2funcContext) : Prop extends Filling s where
  reset : s.txPacket = none → s.txDesc = 0 ∧ s.ethPktSize = 0
  owned : ∀ p, s.txPacket = some p → s.txDesc ≠ 0 ∧ s.ethPktSize ≤ ethPacketSize
  noTso : s.tsoEnabled = false

theorem Settled.consistent (hset : Settled s) : Consistent s := by
  constructor
  · intro hnone
    obtain ⟨hdesc, hsize⟩ := hset.reset hnone
    exact ⟨hdesc, hsize, hset.empty hnone⟩
  · intro hsome
    obtain ⟨p, hp⟩ := Option.ne_none_iff_exists'.mp hsome
    exact hset.busy p hp

theorem Settled.construct : Settled construct := by
  refine ⟨Filling.construct, fun _ => ⟨rfl, rfl⟩, ?_, rfl⟩
  intro p hp
  cases hp

def startsPlain (data : List UInt8) : Bool :=
  !(txDescOf data).cxlIsContext && decide (0 < (txDescOf data).cxlGetLen) &&
    decide ((txDescOf data).cxlGetLen ≤ ethPacketSize)

def startsWell (s : TxM2funcContext) : Bool :=
  s.txPacket.isSome || s.m2funcTxFifo.head?.all startsPlain

theorem startsWell_front (hw : s.startsWell = true) (hnone : s.txPacket = none)
    (hfifo : s.m2funcTxFifo = data :: rest) :
    (txDescOf data).cxlIsContext = false ∧ 0 < (txDescOf data).cxlGetLen ∧
      (txDescOf data).cxlGetLen ≤ ethPacketSize := by
  simpa [startsWell, hnone, hfifo, startsPlain, and_assoc] using hw

theorem Tick.m2funcTxFifo (htick : Tick h candidate s f t g) :
    t.m2funcTxFifo <:+ s.m2funcTxFifo := by
  cases htick with
  | waits | empty | pushed => exact suffix_refl _
  | continued =>
    rw [received_m2funcTxFifo]
    exact tail_suffix _
  | context _ hfifo =>
    rw [hfifo]
    exact suffix_cons _ _
  | started =>
    rw [received_m2funcTxFifo]
    exact tail_suffix _
  | full | zero => exact suffix_refl _

theorem Tick.settled (hset : Settled s) (hw : s.startsWell = true)
    (htick : Tick h candidate s f t g) : Settled t := by
  have hfill := htick.filling hset.toFilling
  cases htick with
  | waits | empty => exact hset
  | pushed =>
    refine ⟨hfill, fun _ => ⟨rfl, rfl⟩, ?_, hset.noTso⟩
    intro q hq
    cases hq
  | @continued p data bytes rest hp _ _ _ _ =>
    refine ⟨hfill, ?_, ?_, ?_⟩
    · simp
    · intro q _
      rw [received_txDesc, received_ethPktSize]
      exact hset.owned p hp
    · rw [received_tsoEnabled]
      exact hset.noTso
  | context hp hfifo hctx =>
    obtain ⟨hplain, _, _⟩ := startsWell_front hw hp hfifo
    rw [hctx] at hplain
    cases hplain
  | @started data bytes rest g hp hfifo _ _ hpos _ _ _ =>
    obtain ⟨_, _, hsize⟩ := startsWell_front hw hp hfifo
    refine ⟨hfill, ?_, ?_, ?_⟩
    · simp
    · intro q _
      rw [received_txDesc, received_ethPktSize]
      exact ⟨CxlTxd.ne_zero_of_len hpos, hsize⟩
    · rw [received_tsoEnabled]
      exact hset.noTso
  | full hp =>
    refine ⟨hfill, fun _ => ⟨rfl, rfl⟩, ?_, hset.noTso⟩
    intro q hq
    exact absurd (hp.symm.trans hq) (by simp)
  | zero hp hfifo _ hlen =>
    obtain ⟨_, hpos, _⟩ := startsWell_front hw hp hfifo
    omega

structure Summable (h : Headers) (s : TxM2funcContext) : Prop where
  first : s.txPacket = none → ∀ data rest, s.m2funcTxFifo = data :: rest → ∀ part, ∃ bytes,
    h.txM2funcChecksum (txDescOf data).cxlIxsm (txDescOf data).cxlTxsm part = .ok bytes
  later : s.txPacket ≠ none → ∀ part, ∃ bytes,
    h.txM2funcChecksum (CxlTxd.cxlIxsm ⟨s.txDesc⟩) (CxlTxd.cxlTxsm ⟨s.txDesc⟩) part = .ok bytes

theorem Summable.of_accepting (hk : h.Accepting) : Summable h s :=
  ⟨fun _ _ _ _ => hk _ _, fun _ => hk _ _⟩

theorem processTxPacket_returns (chunk : List UInt8) {ixsm txsm : Bool}
    (haccept : ∀ part, ∃ bytes, h.txM2funcChecksum ixsm txsm part = .ok bytes)
    (hroom : p.length + chunk.length ≤ ethPacketSize) (htso : s.tsoEnabled = false) :
    ∃ q, s.processTxPacket h chunk ixsm txsm p = .ok q := by
  obtain ⟨bytes, hbytes⟩ := haccept (p.contents ++ chunk)
  unfold processTxPacket
  rw [if_pos hroom, if_neg (by simp [htso]), hbytes]
  exact ⟨_, rfl⟩

theorem pushPacket_returns (hset : Settled s) (hf : f.Sound) (howed : s.owed ≤ f.reserved)
    (hp : s.txPacket = some p) (hdone : s.pktDone = true) :
    ∃ r, s.pushPacket candidate p f = .ok r := by
  obtain ⟨_, _, hiff⟩ := hset.busy p hp
  obtain ⟨hlen, hpos⟩ := hset.complete hp hdone
  obtain ⟨hpush, _, _⟩ := hf.push hpos (by omega)
  unfold pushPacket
  rw [simAssert_of (by simp [hiff.mp hdone]), hpush]
  cases candidate with
  | false | true => exact ⟨_, rfl⟩

theorem continuePacket_returns (data : List UInt8) (haccept : Summable h s) (hset : Settled s)
    (hp : s.txPacket = some p) (hdone : s.pktDone = false) :
    ∃ t, s.continuePacket h p data = .ok t := by
  obtain ⟨hpos, hle, hiff⟩ := hset.busy p hp
  obtain ⟨hdesc, hsize⟩ := hset.owned p hp
  have hlen := hset.packet p hp
  have hne : s.receivedPktSize ≠ s.ethPktSize := by
    intro heq
    rw [hiff.mpr heq] at hdone
    cases hdone
  have hpart : s.laterPart data ≤ s.ethPktSize - s.receivedPktSize := Nat.min_le_left _ _
  obtain ⟨q, hq⟩ := processTxPacket_returns (s := s) (p := p)
    (data.take (s.laterPart data)) (haccept.later (by simp [hp]))
    (by rw [take_laterPart_length]; omega) hset.noTso
  unfold continuePacket
  rw [simAssert_of (by simp; omega), simAssert_of (by simpa using hpos),
    simAssert_of (by simp [hdone]), simAssert_of (by simpa using hdesc),
    simAssert_of (by simpa using hne.symm)]
  simp only [sim_ok_bind, laterPart_eq hset.toFilling hp, hq]
  exact ⟨_, rfl⟩

theorem startPacket_returns (haccept : Summable h s) (hset : Settled s) (hf : f.Sound)
    (hw : s.startsWell = true) (hnone : s.txPacket = none)
    (hfifo : s.m2funcTxFifo = data :: rest) (hlong : descSize < data.length) :
    ∃ r, s.startPacket h data f = .ok r := by
  obtain ⟨hdesc, hsize⟩ := hset.reset hnone
  obtain ⟨hrecv, hdone⟩ := hset.empty hnone
  obtain ⟨hctx, hpos, hfits⟩ := startsWell_front hw hnone hfifo
  unfold startPacket
  rw [simAssert_of (by simpa using hlong), simAssert_of (by simp [hdesc]),
    simAssert_of (by simp [hsize]), simAssert_of (by simp [hrecv]), simAssert_of (by simp [hdone])]
  simp only [sim_ok_bind, hctx]
  by_cases hroom : (txDescOf data).cxlGetLen < f.availUnsigned 64
  · have hroom' : (txDescOf data).cxlGetLen % 2 ^ 32 ≤ f.maxsize - f.size - f.reserved := by
      rw [← hf.availUnsigned_eq (w := 64) (by decide)]
      exact le_trans (Nat.mod_le _ _) (le_of_lt hroom)
    obtain ⟨g, hg⟩ := hf.reserve_returns hroom'
    obtain ⟨_, hlen⟩ := firstLength_bounds hlong hpos
    obtain ⟨q, hq⟩ := processTxPacket_returns (s := s.opened data) (p := .fresh)
      ((data.drop descSize).take (firstLength data)) (haccept.first hnone data rest hfifo)
      (by rw [firstPart_length]; exact le_trans (le_of_eq (zero_add _))
            (le_trans hlen hfits)) hset.noTso
    rw [if_neg (by simp), if_pos ⟨hpos, hroom⟩, firstPart, if_neg (by simp [hset.noTso]), hg]
    change ∃ r, (do
      let p ← (s.opened data).processTxPacket h ((data.drop descSize).take (firstLength data))
        (txDescOf data).cxlIxsm (txDescOf data).cxlTxsm .fresh
      pure ((s.opened data).received (firstLength data) p, g) : Sim _) = .ok r
    rw [hq]
    exact ⟨_, rfl⟩
  · rw [if_neg (by simp), if_neg (fun hboth => hroom hboth.2), if_pos hpos]
    exact ⟨_, rfl⟩

theorem txM2funcStateMachine_returns (candidate : Bool) (haccept : Summable h s) (hset : Settled s)
    (hf : f.Sound)
    (howed : s.owed ≤ f.reserved) (hw : s.startsWell = true) (hlong : s.txPacket = none →
      ∀ data rest, s.m2funcTxFifo = data :: rest → descSize < data.length) :
    ∃ r, s.txM2funcStateMachine h candidate f = .ok r := by
  unfold txM2funcStateMachine
  cases hp : s.txPacket with
  | none =>
    cases hfifo : s.m2funcTxFifo with
    | nil => exact ⟨_, rfl⟩
    | cons data rest =>
      exact startPacket_returns haccept hset hf hw hp hfifo (hlong hp data rest hfifo)
  | some p =>
    obtain ⟨hpos, _, _⟩ := hset.busy p hp
    simp only
    cases hdone : s.pktDone with
    | true =>
      rw [if_pos (by simpa using Nat.pos_iff_ne_zero.mp hpos)]
      exact pushPacket_returns hset hf howed hp hdone
    | false =>
      cases hfifo : s.m2funcTxFifo with
      | nil => exact ⟨_, rfl⟩
      | cons data rest =>
        obtain ⟨t, ht⟩ := continuePacket_returns data haccept hset hp hdone
        simp only [ht]
        exact ⟨_, rfl⟩

end TxM2funcContext

/-- The transmit side of a device in M2func mode. -/
structure TxM2funcDevice where
  queues : Nat → TxM2funcContext
  txFifo : PacketFifo

/-- The host writes a flit; a queue's state machine runs, with or without being the
candidate for `txFifo`; `txWire` sends a packet. -/
inductive TxM2funcAct where
  | write (q : Nat) (data : List UInt8)
  | tick (q : Nat) (candidate : Bool)
  | pop

namespace TxM2funcDevice

open TxM2funcContext

variable {numQueues flitSize maxsize q : Nat} {h : Headers} {d e : TxM2funcDevice}
  {a : TxM2funcAct}

def construct (maxsize : Nat) : TxM2funcDevice :=
  ⟨fun _ => TxM2funcContext.construct, PacketFifo.construct maxsize⟩

def set (q : Nat) (s : TxM2funcContext) (f : PacketFifo) (d : TxM2funcDevice) : TxM2funcDevice :=
  ⟨Function.update d.queues q s, f⟩

def step (flitSize : Nat) (h : Headers) (d : TxM2funcDevice) : TxM2funcAct → Sim TxM2funcDevice
  | .write q data => do
    let s ← (d.queues q).writeM2funcPacket flitSize data
    pure (d.set q s d.txFifo)
  | .tick q candidate => do
    let (s, f) ← (d.queues q).txM2funcStateMachine h candidate d.txFifo
    pure (d.set q s f)
  | .pop => pure { d with txFifo := d.txFifo.pop }

def Written (numQueues : Nat) (_ : TxM2funcDevice) : TxM2funcAct → Prop
  | .write q data => q < numQueues ∧ descSize < data.length
  | .tick q _ => q < numQueues
  | .pop => True

instance (a : TxM2funcAct) : Decidable (Written numQueues d a) := by
  cases a <;> unfold Written <;> infer_instance

def WrittenWell (numQueues : Nat) (d : TxM2funcDevice) : TxM2funcAct → Prop
  | .write q data => q < numQueues ∧ descSize < data.length
  | .tick q _ => q < numQueues ∧ (d.queues q).startsWell = true
  | .pop => True

instance (a : TxM2funcAct) : Decidable (WrittenWell numQueues d a) := by
  cases a <;> unfold WrittenWell <;> infer_instance

structure Settled (numQueues : Nat) (d : TxM2funcDevice) : Prop where
  queues : ∀ q, (d.queues q).Settled
  flits : ∀ q, ∀ data ∈ (d.queues q).m2funcTxFifo, descSize < data.length
  fifo : d.txFifo.Sound
  reserved : d.txFifo.reserved = total numQueues fun q => (d.queues q).owed

theorem Settled.construct (hmax : maxsize < 2 ^ 31) : Settled numQueues (construct maxsize) :=
  ⟨fun _ => .construct, fun _ _ hd => absurd hd not_mem_nil, .construct hmax,
    total_zero.symm⟩

attribute [local simp] TxM2funcDevice.set

theorem Settled.set {s : TxM2funcContext} {f : PacketFifo} (hset : Settled numQueues d)
    (hq : q < numQueues) (hs : s.Settled)
    (hflits : ∀ data ∈ s.m2funcTxFifo, descSize < data.length) (hf : f.Sound)
    (howed : f.reserved + (d.queues q).owed = d.txFifo.reserved + s.owed) :
    Settled numQueues (d.set q s f) := by
  refine ⟨?_, ?_, hf, ?_⟩
  · intro r
    rcases eq_or_ne r q with rfl | hne
    · simpa using hs
    · simpa [hne] using hset.queues r
  · intro r
    rcases eq_or_ne r q with rfl | hne
    · simpa using hflits
    · simpa [hne] using hset.flits r
  · have htotal := total_update (s := d.queues) (m := owed) hq s
    have hreserved := hset.reserved
    change f.reserved = total numQueues fun r => (Function.update d.queues q s r).owed
    omega

theorem Settled.owed_le (hset : Settled numQueues d) (hq : q < numQueues) :
    (d.queues q).owed ≤ d.txFifo.reserved := by
  rw [hset.reserved]
  exact le_total (f := fun q => (d.queues q).owed) hq

theorem Settled.step (hset : Settled numQueues d) (ha : WrittenWell numQueues d a)
    (hs : d.step flitSize h a = .ok e) : Settled numQueues e := by
  cases a with
  | write q data =>
    obtain ⟨hq, hlong⟩ := ha
    obtain ⟨s, hs', rfl⟩ := map_eq_ok.mp hs
    obtain ⟨_, _, hs'⟩ := bind_eq_ok.mp hs'
    obtain rfl := Except.ok.inj hs'
    have hold := hset.queues q
    have hnew : TxM2funcContext.Settled { d.queues q with
        m2funcTxFifo := (d.queues q).m2funcTxFifo ++ [data] } :=
      ⟨⟨hold.empty, hold.busy, hold.packet, hold.short⟩, hold.reset, hold.owned, hold.noTso⟩
    refine hset.set hq hnew ?_ hset.fifo rfl
    intro b hb
    rcases mem_append.mp hb with hb | hb
    · exact hset.flits q b hb
    · rw [mem_singleton.mp hb]
      exact hlong
  | tick q candidate =>
    obtain ⟨hq, hw⟩ := ha
    obtain ⟨⟨s, f⟩, hs', hs⟩ := bind_eq_ok.mp hs
    cases hs
    have hold := hset.queues q
    have htick := txM2funcStateMachine_tick hold.toFilling hs'
    obtain ⟨hf, howed, _⟩ := htick.fifo hold.toFilling hset.fifo (hset.owed_le hq)
    exact hset.set hq (htick.settled hold hw)
      (fun data hd => hset.flits q data (htick.m2funcTxFifo.subset hd)) hf howed
  | pop =>
    cases hs
    obtain ⟨hf, hreserved, _⟩ := hset.fifo.pop
    exact ⟨hset.queues, hset.flits, hf, hreserved.trans hset.reserved⟩

theorem settled_reach (hmax : maxsize < 2 ^ 31)
    (hr : Reach (step flitSize h) (WrittenWell numQueues) (construct maxsize) d) :
    Settled numQueues d :=
  hr.invariant (Settled.construct hmax) fun hset ha hs => hset.step ha hs

/-- Every context stays consistent and no assert of the state machine fails: the call
returns whenever the checksums it asks for are not refused. -/
theorem tx_context_consistent (hmax : maxsize < 2 ^ 31)
    (hr : Reach (step flitSize h) (WrittenWell numQueues) (construct maxsize) d)
    (hq : q < numQueues) :
    (d.queues q).Consistent ∧
      ∀ k : Headers, k.Accepting → ∀ candidate, WrittenWell numQueues d (.tick q candidate) →
        ∃ e, d.step flitSize k (.tick q candidate) = .ok e := by
  have hset := settled_reach hmax hr
  refine ⟨(hset.queues q).consistent, ?_⟩
  intro k hk candidate hw
  have hsum : Summable k (d.queues q) := .of_accepting hk
  obtain ⟨r, hr⟩ := txM2funcStateMachine_returns candidate hsum (hset.queues q) hset.fifo
    (hset.owed_le hq) hw.2 (fun _ data rest hfifo =>
      hset.flits q data (by rw [hfifo]; exact mem_cons_self))
  simp only [step, hr]
  exact ⟨_, rfl⟩

def threeBytes : List UInt8 := [3, 0, 0, 0, 0, 0, 0, 0, 7, 8, 9]

def contextFlit : List UInt8 := [0, 0, 0, 0x20, 0, 0, 0, 0, 0, 0, 0, 0, 0, 0, 0, 0]

theorem tx_context_consistent_three_bytes :
    ∃ d, Reach (step 64 noHeaders) (WrittenWell 1) (construct 100) d ∧
      (d.queues 0).pktDone = true ∧ (d.queues 0).Consistent := by
  obtain ⟨d, hr, hdone⟩ := Reach.exists_of_runFrom (step 64 noHeaders) (WrittenWell 1)
    (construct 100) [.write 0 threeBytes, .tick 0 true] (fun d => (d.queues 0).pktDone)
    (by decide +kernel)
  exact ⟨d, hr, hdone, (tx_context_consistent (q := 0) (by decide) hr (by decide)).1⟩

/-- After a context descriptor the descriptor register is still set, and the next packet
stops the simulation. -/
theorem context_descriptor_not_idle :
    ∃ d, Reach (step 64 noHeaders) (Written 1) (construct 100) d ∧
      ((d.queues 0).txPacket = none ∧ (d.queues 0).txDesc ≠ 0) ∧
      d.step 64 noHeaders (.tick 0 true) = .error .assertion :=
  Reach.exists_of_run [.write 0 contextFlit, .write 0 threeBytes, .tick 0 true] (by decide +kernel)

end TxM2funcDevice

end Gem5.IGbE
