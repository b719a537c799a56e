import Gem5.M2func.TxContext

/-!
# What one call of the transmit state machine does

`Tick` lists the exits of `txM2funcStateMachine`. `Filling` is what every call keeps,
whatever the host writes: the packet in progress has the bytes received so far and the
fifo has bytes reserved for all of it.
-/

namespace Gem5.IGbE

namespace CxlTxd

theorem ne_zero_of_len {x : CxlTxd} (h : 0 < x.cxlGetLen) : x.d ≠ 0 := by
  intro hzero
  have hlen : x.cxlGetLen = 0 := by
    simp [cxlGetLen, hzero, getBits]
  omega

theorem cxlGetLen_lt (x : CxlTxd) : x.cxlGetLen < 2 ^ 18 := by
  unfold cxlGetLen getBits
  split
  · exact lt_of_lt_of_le (Nat.mod_lt _ (by decide)) (by decide)
  · exact Nat.mod_lt _ (by decide)

end CxlTxd

namespace TxM2funcContext

variable {h : Headers} {s t : TxM2funcContext} {f g : PacketFifo} {p q : EthPacketData}
  {data chunk : List UInt8} {rest : List (List UInt8)} {candidate : Bool} {n : Nat}

def laterPart (s : TxM2funcContext) (data : List UInt8) : Nat :=
  min (s.ethPktSize - s.receivedPktSize) data.length

/-- The packet with `bytes` in its buffer, `n` more than before. -/
def grown (n : Nat) (bytes : List UInt8) (p : EthPacketData) : EthPacketData :=
  { p with data := bytes, length := p.length + n }

def opened (data : List UInt8) (s : TxM2funcContext) : TxM2funcContext :=
  { s with
    txDesc := (txDescOf data).d
    ethPktSize := (txDescOf data).cxlGetLen
    receivedPktSize := 0
    pktDone := false }

def firstLength (data : List UInt8) : Nat :=
  min (data.length - descSize) (txDescOf data).cxlGetLen

inductive Tick (h : Headers) (candidate : Bool) (s : TxM2funcContext) (f : PacketFifo) :
    TxM2funcContext → PacketFifo → Prop
  | waits {p : EthPacketData} : s.txPacket = some p → s.pktDone = true → candidate = false →
      Tick h candidate s f s f
  | empty : (s.txPacket = none ∨ s.pktDone = false) → s.m2funcTxFifo = [] → Tick h candidate s f s f
  | pushed {p : EthPacketData} {g : PacketFifo} : s.txPacket = some p → s.pktDone = true →
      candidate = true → f.push p = .ok (true, g) →
      Tick h candidate s f { s.resetContext with txPacket := none } g
  | continued {p : EthPacketData} {data bytes : List UInt8} {rest : List (List UInt8)} :
      s.txPacket = some p → s.pktDone = false → s.m2funcTxFifo = data :: rest →
      p.length + s.laterPart data ≤ ethPacketSize →
      h.txM2funcChecksum (CxlTxd.cxlIxsm ⟨s.txDesc⟩) (CxlTxd.cxlTxsm ⟨s.txDesc⟩)
        (p.contents ++ data.take (s.laterPart data)) = .ok bytes →
      Tick h candidate s f (s.received (s.laterPart data) (grown (s.laterPart data) bytes p)) f
  | context {data : List UInt8} {rest : List (List UInt8)} : s.txPacket = none →
      s.m2funcTxFifo = data :: rest → (txDescOf data).cxlIsContext = true →
      Tick h candidate s f { s with
        txDesc := (txDescOf data).d
        m2funcTxFifo := rest
        tsoEnabled := s.tsoEnabled ||
          ((txDescOf data).cxlIsType TxDesc.txdCnxt && (txDescOf data).cxlTse) } f
  | started {data bytes : List UInt8} {rest : List (List UInt8)} {g : PacketFifo} :
      s.txPacket = none → s.m2funcTxFifo = data :: rest → descSize < data.length →
      (txDescOf data).cxlIsContext = false → 0 < (txDescOf data).cxlGetLen →
      (txDescOf data).cxlGetLen < f.availUnsigned 64 →
      f.reserve (txDescOf data).cxlGetLen = .ok g →
      h.txM2funcChecksum (txDescOf data).cxlIxsm (txDescOf data).cxlTxsm
        ((data.drop descSize).take (firstLength data)) = .ok bytes →
      Tick h candidate s f ((s.opened data).received (firstLength data)
        (grown (firstLength data) bytes .fresh)) g
  | full {data : List UInt8} {rest : List (List UInt8)} : s.txPacket = none →
      s.m2funcTxFifo = data :: rest → f.availUnsigned 64 ≤ (txDescOf data).cxlGetLen →
      Tick h candidate s f s.resetContext f
  | zero {data : List UInt8} {rest : List (List UInt8)} : s.txPacket = none →
      s.m2funcTxFifo = data :: rest → (txDescOf data).cxlIsContext = false →
      (txDescOf data).cxlGetLen = 0 →
      Tick h candidate s f { s with txDesc := (txDescOf data).d, ethPktSize := 0 } f

structure Filling (s : TxM2funcContext) : Prop where
  empty : s.txPacket = none → s.receivedPktSize = 0 ∧ s.pktDone = false
  busy : ∀ p, s.txPacket = some p → 0 < s.receivedPktSize ∧ s.receivedPktSize ≤ s.ethPktSize ∧
    (s.pktDone = true ↔ s.receivedPktSize = s.ethPktSize)
  packet : ∀ p, s.txPacket = some p → p.length = s.receivedPktSize
  short : s.ethPktSize < 2 ^ 18

theorem processTxPacket_cases {ixsm txsm : Bool}
    (hs : s.processTxPacket h chunk ixsm txsm p = .ok q) :
    p.length + chunk.length ≤ ethPacketSize ∧ s.tsoEnabled = false ∧
      ∃ bytes, h.txM2funcChecksum ixsm txsm (p.contents ++ chunk) = .ok bytes ∧
        q = grown chunk.length bytes p := by
  unfold processTxPacket at hs
  split at hs
  · rename_i hle
    split at hs
    · cases hs
    · rename_i htso
      obtain ⟨bytes, hb, hs⟩ := bind_eq_ok.mp hs
      exact ⟨hle, by simpa using htso, bytes, hb, eq_of_ok hs rfl⟩
  · cases hs

theorem laterPart_eq (hfill : Filling s) (hp : s.txPacket = some p) :
    (if (s.ethPktSize + 2 ^ 64 - s.receivedPktSize) % 2 ^ 64 < data.length then
      (s.ethPktSize + 2 ^ 64 - s.receivedPktSize) % 2 ^ 64 else data.length) =
        s.laterPart data := by
  have hshort := hfill.short
  obtain ⟨_, hle, _⟩ := hfill.busy p hp
  unfold laterPart
  split <;> omega

theorem take_laterPart_length : (data.take (s.laterPart data)).length = s.laterPart data := by
  rw [List.length_take]
  unfold laterPart
  omega

theorem firstPart_length (data : List UInt8) :
    ((data.drop descSize).take (firstLength data)).length = firstLength data := by
  rw [List.length_take, List.length_drop]
  unfold firstLength
  omega

theorem continuePacket_tick (hfill : Filling s) (hp : s.txPacket = some p)
    (hfifo : s.m2funcTxFifo = data :: rest) (hs : s.continuePacket h p data = .ok t) :
    Tick h candidate s f t f := by
  obtain ⟨_, _, hs⟩ := bind_eq_ok.mp hs
  obtain ⟨_, _, hs⟩ := bind_eq_ok.mp hs
  obtain ⟨_, hdone, hs⟩ := bind_eq_ok.mp hs
  obtain ⟨_, _, hs⟩ := bind_eq_ok.mp hs
  obtain ⟨_, _, hs⟩ := bind_eq_ok.mp hs
  simp only [laterPart_eq hfill hp] at hs
  obtain ⟨q, hq, rfl⟩ := map_eq_ok.mp hs
  obtain ⟨hroom, _, bytes, hbytes, rfl⟩ := processTxPacket_cases hq
  rw [take_laterPart_length] at hroom ⊢
  exact .continued hp (by simpa [simAssert_eq_ok] using hdone) hfifo hroom hbytes

theorem firstPart_tick (hnone : s.txPacket = none) (hfifo : s.m2funcTxFifo = data :: rest)
    (hlong : descSize < data.length) (hctx : (txDescOf data).cxlIsContext = false)
    (hpos : 0 < (txDescOf data).cxlGetLen) (hroom : (txDescOf data).cxlGetLen < f.availUnsigned 64)
    (hs : firstPart h (txDescOf data) data
      { s with txDesc := (txDescOf data).d, ethPktSize := (txDescOf data).cxlGetLen } f =
        .ok (t, g)) : Tick h candidate s f t g := by
  unfold firstPart at hs
  split at hs
  · cases hs
  · obtain ⟨f', hf', hs⟩ := bind_eq_ok.mp hs
    obtain ⟨q, hq, hs⟩ := bind_eq_ok.mp hs
    obtain ⟨rfl, rfl⟩ := Prod.mk.inj (Except.ok.inj hs)
    obtain ⟨_, _, bytes, hbytes, rfl⟩ := processTxPacket_cases hq
    have hlen := (txDescOf data).cxlGetLen_lt
    have hmod : (txDescOf data).cxlGetLen % 2 ^ 32 = (txDescOf data).cxlGetLen :=
      Nat.mod_eq_of_lt (by omega)
    rw [hmod] at hf'
    have hpart := firstPart_length data
    unfold firstLength at hpart
    rw [hpart]
    exact .started hnone hfifo hlong hctx hpos hroom hf' hbytes

theorem startPacket_tick (hnone : s.txPacket = none) (hfifo : s.m2funcTxFifo = data :: rest)
    (hs : s.startPacket h data f = .ok (t, g)) : Tick h candidate s f t g := by
  obtain ⟨_, hlong, hs⟩ := bind_eq_ok.mp hs
  iterate 4 obtain ⟨_, _, hs⟩ := bind_eq_ok.mp hs
  have hlong' : descSize < data.length := by simpa [simAssert_eq_ok] using hlong
  simp only at hs
  split at hs
  · rename_i hctx
    obtain ⟨s', hs', hs⟩ := bind_eq_ok.mp hs
    cases hs
    obtain ⟨_, _, hs'⟩ := bind_eq_ok.mp hs'
    obtain rfl := Except.ok.inj hs'
    rw [hfifo]
    exact .context hnone hfifo hctx
  · rename_i hctx
    have hctx' : (txDescOf data).cxlIsContext = false := by simpa using hctx
    split at hs
    · rename_i hroom
      exact firstPart_tick hnone hfifo hlong' hctx' hroom.1 hroom.2 hs
    · rename_i hroom
      split at hs
      · rename_i hpos
        cases hs
        exact .full hnone hfifo (Nat.not_lt.mp fun hlt => hroom ⟨hpos, hlt⟩)
      · rename_i hpos
        cases hs
        have hzero : (txDescOf data).cxlGetLen = 0 := Nat.eq_zero_of_not_pos hpos
        rw [hzero]
        exact .zero hnone hfifo hctx' hzero

theorem pushPacket_tick (hp : s.txPacket = some p) (hdone : s.pktDone = true)
    (hs : s.pushPacket candidate p f = .ok (t, g)) : Tick h candidate s f t g := by
  obtain ⟨_, _, hs⟩ := bind_eq_ok.mp hs
  split at hs
  · rename_i hcand
    obtain ⟨⟨success, f'⟩, hpush, hs⟩ := bind_eq_ok.mp hs
    obtain ⟨_, hsuccess, hs⟩ := bind_eq_ok.mp hs
    obtain rfl : success = true := simAssert_eq_ok.mp hsuccess
    cases hs
    exact .pushed hp hdone hcand hpush
  · rename_i hcand
    cases hs
    exact .waits hp hdone (by simpa using hcand)

theorem txM2funcStateMachine_tick (hfill : Filling s)
    (hs : s.txM2funcStateMachine h candidate f = .ok (t, g)) : Tick h candidate s f t g := by
  unfold txM2funcStateMachine at hs
  cases hp : s.txPacket with
  | some p =>
    simp only [hp] at hs
    obtain ⟨hpos, _, _⟩ := hfill.busy p hp
    split at hs
    · rename_i hdone
      exact pushPacket_tick hp (Bool.and_eq_true_iff.mp hdone).1 hs
    · rename_i hdone
      have hdone' : s.pktDone = false := by
        simpa [Nat.pos_iff_ne_zero.mp hpos] using hdone
      cases hfifo : s.m2funcTxFifo with
      | nil =>
        simp only [hfifo] at hs
        cases hs
        exact .empty (Or.inr hdone') hfifo
      | cons data rest =>
        simp only [hfifo] at hs
        obtain ⟨s', hs', hs⟩ := bind_eq_ok.mp hs
        cases hs
        exact continuePacket_tick hfill hp hfifo hs'
  | none =>
    simp only [hp] at hs
    cases hfifo : s.m2funcTxFifo with
    | nil =>
      simp only [hfifo] at hs
      cases hs
      exact .empty (Or.inl hp) hfifo
    | cons data rest =>
      simp only [hfifo] at hs
      exact startPacket_tick hp hfifo hs

def owed (s : TxM2funcContext) : Nat := if s.txPacket.isSome then s.ethPktSize else 0

theorem owed_of_packet (hp : s.txPacket = some p) : s.owed = s.ethPktSize := by
  simp [owed, hp]

theorem owed_of_none (hp : s.txPacket = none) : s.owed = 0 := by
  simp [owed, hp]

theorem owed_eq_of_none (hs : s.txPacket = none) (ht : t.txPacket = none) : s.owed = t.owed := by
  rw [owed_of_none hs, owed_of_none ht]

theorem Filling.of_none (hnone : s.txPacket = none) (hrecv : s.receivedPktSize = 0)
    (hdone : s.pktDone = false) (hshort : s.ethPktSize < 2 ^ 18) : Filling s := by
  refine ⟨fun _ => ⟨hrecv, hdone⟩, ?_, ?_, hshort⟩
  · intro q hq
    exact absurd (hnone.symm.trans hq) (by simp)
  · intro q hq
    exact absurd (hnone.symm.trans hq) (by simp)

theorem Filling.construct : Filling construct := .of_none rfl rfl rfl (Nat.two_pow_pos 18)

@[simp] theorem received_txPacket : (s.received n p).txPacket = some p := by
  unfold received
  simp only
  split <;> rfl

@[simp] theorem received_ethPktSize : (s.received n p).ethPktSize = s.ethPktSize := by
  unfold received
  simp only
  split <;> rfl

@[simp] theorem received_receivedPktSize :
    (s.received n p).receivedPktSize = s.receivedPktSize + n := by
  unfold received
  simp only
  split <;> rfl

@[simp] theorem received_m2funcTxFifo : (s.received n p).m2funcTxFifo = s.m2funcTxFifo.tail := by
  unfold received
  simp only
  split <;> rfl

@[simp] theorem received_txDesc : (s.received n p).txDesc = s.txDesc := by
  unfold received
  simp only
  split <;> rfl

@[simp] theorem received_tsoEnabled : (s.received n p).tsoEnabled = s.tsoEnabled := by
  unfold received
  simp only
  split <;> rfl

theorem received_pktDone (hdone : s.pktDone = false) :
    (s.received n p).pktDone = true ↔ s.receivedPktSize + n = s.ethPktSize := by
  unfold received
  simp only
  split
  · rename_i heq
    exact ⟨fun _ => heq, fun _ => rfl⟩
  · rename_i hne
    simp [hdone, hne]

theorem Filling.received (hpos : 0 < s.receivedPktSize + n)
    (hle : s.receivedPktSize + n ≤ s.ethPktSize) (hlen : p.length = s.receivedPktSize + n)
    (hdone : s.pktDone = false) (hshort : s.ethPktSize < 2 ^ 18) : Filling (s.received n p) := by
  refine ⟨?_, ?_, ?_, ?_⟩
  · simp
  · intro q _
    rw [received_receivedPktSize, received_ethPktSize]
    exact ⟨hpos, hle, received_pktDone hdone⟩
  · intro q hq
    rw [received_txPacket] at hq
    obtain rfl := Option.some.inj hq
    rw [received_receivedPktSize, hlen]
  · rw [received_ethPktSize]
    exact hshort

theorem firstLength_bounds (hlong : descSize < data.length) (hpos : 0 < (txDescOf data).cxlGetLen) :
    0 < firstLength data ∧ firstLength data ≤ (txDescOf data).cxlGetLen := by
  unfold firstLength
  omega

theorem Tick.filling (hfill : Filling s) (htick : Tick h candidate s f t g) : Filling t := by
  cases htick with
  | waits | empty => exact hfill
  | pushed => exact .of_none rfl rfl rfl (Nat.two_pow_pos 18)
  | @continued p data bytes rest hp hdone hfifo hroom hbytes =>
    obtain ⟨hpos, hle, _⟩ := hfill.busy p hp
    have hlen := hfill.packet p hp
    have hpart : s.laterPart data ≤ s.ethPktSize - s.receivedPktSize := Nat.min_le_left _ _
    apply Filling.received _ _ _ hdone hfill.short
    · omega
    · omega
    · rw [← hlen]
      rfl
  | context hp =>
    obtain ⟨hrecv, hdone⟩ := hfill.empty hp
    exact .of_none hp hrecv hdone hfill.short
  | @started data bytes rest g hp hfifo hlong hctx hlen _ _ hbytes =>
    obtain ⟨hpos, hle⟩ := firstLength_bounds hlong hlen
    apply Filling.received
    · exact Nat.add_pos_right 0 hpos
    · change 0 + firstLength data ≤ (txDescOf data).cxlGetLen
      omega
    · rfl
    · rfl
    · exact (txDescOf data).cxlGetLen_lt
  | full hp => exact .of_none hp rfl rfl (Nat.two_pow_pos 18)
  | zero hp =>
    obtain ⟨hrecv, hdone⟩ := hfill.empty hp
    exact .of_none hp hrecv hdone (Nat.two_pow_pos 18)

theorem Filling.complete (hfill : Filling s) (hp : s.txPacket = some p)
    (hdone : s.pktDone = true) : p.length = s.owed ∧ 0 < p.length := by
  obtain ⟨hpos, _, hiff⟩ := hfill.busy p hp
  have hlen := hfill.packet p hp
  rw [owed_of_packet hp, ← hiff.mp hdone, hlen]
  exact ⟨rfl, hpos⟩

theorem Tick.fifo (hfill : Filling s) (hf : f.Sound) (howed : s.owed ≤ f.reserved)
    (htick : Tick h candidate s f t g) :
    g.Sound ∧ g.reserved + s.owed = f.reserved + t.owed ∧ g.maxsize = f.maxsize := by
  cases htick with
  | waits | empty => exact ⟨hf, rfl, rfl⟩
  | pushed hp hdone _ hpush =>
    obtain ⟨hlen, hpos⟩ := hfill.complete hp hdone
    obtain ⟨hpush', hsound, hres⟩ := hf.push hpos (by omega)
    obtain ⟨_, rfl⟩ := Prod.mk.inj (eq_of_ok hpush hpush')
    refine ⟨hsound, ?_, rfl⟩
    rw [hres]
    change f.reserved - _ + s.owed = f.reserved + 0
    omega
  | continued hp _ _ _ _ =>
    refine ⟨hf, ?_, rfl⟩
    rw [owed_of_packet hp, owed_of_packet received_txPacket, received_ethPktSize]
  | context hp => exact ⟨hf, congrArg _ (owed_eq_of_none hp hp), rfl⟩
  | @started data bytes rest g hp _ _ _ _ _ hres =>
    obtain ⟨hsound, hreserved, _, _, hmax⟩ := hf.reserve hres
    refine ⟨hsound, ?_, hmax⟩
    rw [hreserved, owed_of_none hp, owed_of_packet received_txPacket, received_ethPktSize]
    rfl
  | full hp | zero hp => exact ⟨hf, congrArg _ (owed_eq_of_none hp hp), rfl⟩

end TxM2funcContext

end Gem5.IGbE
