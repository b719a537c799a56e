import Gem5.IGbE.TxReserve
import Gem5.M2func.TxSteps

/-!
# All queues reserve in one transmit fifo

A device has a descriptor ring and an M2func context for each queue, of which one kind
is in use. `frames` is what the queues have reserved and not pushed yet.
-/

namespace Gem5.IGbE

structure TxDevice where
  rings : Nat → TxDescCacheGlobal
  contexts : Nat → TxM2funcContext
  txFifo : PacketFifo

/-- Something happens to a ring from outside, or its state machine runs; the host writes
a flit, or the state machine of a context runs; `txWire` sends a packet. -/
inductive TxDeviceAct where
  | event (q : Nat) (o : TxOp)
  | ringTick (q : Nat) (env : TxEnv) (en candidate : Bool)
  | write (q : Nat) (data : List UInt8)
  | contextTick (q : Nat) (h : Headers) (candidate : Bool)
  | pop

namespace TxDevice

open TxDescCacheGlobal (Sized SingleOp)
open TxM2funcContext (Filling)

variable {cfg : Config} {numQueues flitSize maxsize q : Nat} {d e : TxDevice} {a : TxDeviceAct}

def construct (base len : Nat → Nat) (maxsize : Nat) : TxDevice where
  rings q := .construct (base q) (len q)
  contexts _ := .construct
  txFifo := .construct maxsize

def setRing (q : Nat) (s : TxDescCacheGlobal) (f : PacketFifo) (d : TxDevice) : TxDevice :=
  { d with rings := Function.update d.rings q s, txFifo := f }

def setContext (q : Nat) (s : TxM2funcContext) (f : PacketFifo) (d : TxDevice) : TxDevice :=
  { d with contexts := Function.update d.contexts q s, txFifo := f }

def step (cfg : Config) (flitSize : Nat) (d : TxDevice) : TxDeviceAct → Sim TxDevice
  | .event q o => do
    let s ← (d.rings q).op cfg o
    pure (d.setRing q s d.txFifo)
  | .ringTick q env en candidate => do
    let (s, f) ← (d.rings q).txStateMachine .packetFifo cfg env en candidate
      d.txFifo
    pure (d.setRing q s f)
  | .write q data => do
    let s ← (d.contexts q).writeM2funcPacket flitSize data
    pure (d.setContext q s d.txFifo)
  | .contextTick q h candidate => do
    let (s, f) ← (d.contexts q).txM2funcStateMachine h candidate d.txFifo
    pure (d.setContext q s f)
  | .pop => pure { d with txFifo := d.txFifo.pop }

def Occurs (numQueues : Nat) (d : TxDevice) : TxDeviceAct → Prop
  | .event q o => q < numQueues ∧ o.external = true ∧ SingleOp (d.rings q) o
  | .ringTick q _ _ _ => q < numQueues
  | .write q _ => q < numQueues
  | .contextTick q _ _ => q < numQueues
  | .pop => True

instance (d : TxDevice) (a : TxDeviceAct) : Decidable (Occurs numQueues d a) :=
  match a with
  | .event q o =>
    inferInstanceAs (Decidable (q < numQueues ∧ o.external = true ∧ SingleOp (d.rings q) o))
  | .ringTick q _ _ _ | .write q _ | .contextTick q _ _ =>
    inferInstanceAs (Decidable (q < numQueues))
  | .pop => isTrue trivial

def frames (cfg : Config) (numQueues : Nat) (d : TxDevice) : Nat :=
  (total numQueues fun q => (d.rings q).owed cfg) + total numQueues fun q => (d.contexts q).owed

structure Balanced (cfg : Config) (numQueues : Nat) (d : TxDevice) : Prop where
  rings : ∀ q, Sized cfg (d.rings q)
  contexts : ∀ q, Filling (d.contexts q)
  fifo : d.txFifo.Sound
  reserved : d.txFifo.reserved = d.frames cfg numQueues

namespace Balanced

theorem construct {base len : Nat → Nat} (hmax : maxsize < 2 ^ 31) :
    Balanced cfg numQueues (construct base len maxsize) where
  rings q := Sized.construct cfg (base q) (len q)
  contexts _ := Filling.construct
  fifo := .construct hmax
  reserved := by
    have hring : ∀ q, ((TxDevice.construct base len maxsize).rings q).owed cfg = 0 :=
      fun _ => total_zero
    have hcontext : ∀ q, ((TxDevice.construct base len maxsize).contexts q).owed = 0 :=
      fun _ => rfl
    simp only [frames, hring, hcontext, total_zero]
    rfl

section

variable (h : Balanced cfg numQueues d)
include h

theorem ring_le (hq : q < numQueues) : (d.rings q).owed cfg ≤ d.txFifo.reserved := by
  have hle := le_total (f := fun q => (d.rings q).owed cfg) hq
  rw [h.reserved]
  exact le_trans hle (Nat.le_add_right _ _)

theorem context_le (hq : q < numQueues) : (d.contexts q).owed ≤ d.txFifo.reserved := by
  have hle := le_total (f := fun q => (d.contexts q).owed) hq
  rw [h.reserved]
  exact le_trans hle (Nat.le_add_left _ _)

theorem setRing {s : TxDescCacheGlobal} {f : PacketFifo}
    (hq : q < numQueues) (hs : Sized cfg s) (hf : f.Sound)
    (howed : f.reserved + (d.rings q).owed cfg = d.txFifo.reserved + s.owed cfg) :
    Balanced cfg numQueues (d.setRing q s f) where
  rings r := by
    rcases eq_or_ne r q with rfl | hne
    · simpa [TxDevice.setRing] using hs
    · simpa [TxDevice.setRing, hne] using h.rings r
  contexts := h.contexts
  fifo := hf
  reserved := by
    have htotal := total_update (s := d.rings) (m := TxDescCacheGlobal.owed cfg) hq s
    have hreserved := h.reserved
    unfold frames at hreserved ⊢
    simp only [TxDevice.setRing]
    omega

theorem setContext {s : TxM2funcContext} {f : PacketFifo}
    (hq : q < numQueues) (hs : Filling s) (hf : f.Sound)
    (howed : f.reserved + (d.contexts q).owed = d.txFifo.reserved + s.owed) :
    Balanced cfg numQueues (d.setContext q s f) where
  rings := h.rings
  contexts r := by
    rcases eq_or_ne r q with rfl | hne
    · simpa [TxDevice.setContext] using hs
    · simpa [TxDevice.setContext, hne] using h.contexts r
  fifo := hf
  reserved := by
    have htotal := total_update (s := d.contexts) (m := TxM2funcContext.owed) hq s
    have hreserved := h.reserved
    unfold frames at hreserved ⊢
    simp only [TxDevice.setContext]
    omega

theorem step (ha : Occurs numQueues d a)
    (hs : d.step cfg flitSize a = .ok e) : Balanced cfg numQueues e := by
  cases a with
  | event q o =>
    obtain ⟨hq, hext, hsingle⟩ := ha
    obtain ⟨s, hs', rfl⟩ := map_eq_ok.mp hs
    obtain ⟨hsized, hsame⟩ := (h.rings q).event hext hsingle hs'
    refine h.setRing hq hsized h.fifo ?_
    rw [Sized.owed_of_same hsame]
  | ringTick q env en candidate =>
    obtain ⟨⟨s, f⟩, hs', hs⟩ := bind_eq_ok.mp hs
    cases hs
    obtain ⟨hsized, hf, howed, _⟩ := (h.rings q).tick h.fifo (h.ring_le ha) hs'
    exact h.setRing ha hsized hf howed
  | write q data =>
    obtain ⟨s, hs', rfl⟩ := map_eq_ok.mp hs
    obtain ⟨_, _, hs'⟩ := bind_eq_ok.mp hs'
    obtain rfl := Except.ok.inj hs'
    have hold := h.contexts q
    exact h.setContext ha ⟨hold.empty, hold.busy, hold.packet, hold.short⟩ h.fifo rfl
  | contextTick q headers candidate =>
    obtain ⟨⟨s, f⟩, hs', hs⟩ := bind_eq_ok.mp hs
    cases hs
    have htick := TxM2funcContext.txM2funcStateMachine_tick (h.contexts q) hs'
    obtain ⟨hf, howed, _⟩ := htick.fifo (h.contexts q) h.fifo (h.context_le ha)
    exact h.setContext ha (htick.filling (h.contexts q)) hf howed
  | pop =>
    cases hs
    obtain ⟨hf, hreserved, _⟩ := h.fifo.pop
    exact ⟨h.rings, h.contexts, hf, hreserved.trans h.reserved⟩

end

end Balanced

/-- In every reachable state the bytes in the fifo and the bytes reserved fit, the bytes
reserved are those of the frames on their way, and a frame that is complete gets in. -/
theorem tx_fifo_reservation {base len : Nat → Nat} (hmax : maxsize < 2 ^ 31)
    (hr : Reach (step cfg flitSize) (Occurs numQueues) (construct base len maxsize) d) :
    d.txFifo.size + d.txFifo.reserved ≤ d.txFifo.maxsize ∧
      d.txFifo.reserved = d.frames cfg numQueues ∧
      (∀ q < numQueues, ∀ p s, (d.rings q).getReadyEthPacket cfg = .ok (p, s) →
        ∃ f, d.txFifo.push p = .ok (true, f)) ∧
      ∀ q < numQueues, ∀ p, (d.contexts q).txPacket = some p → (d.contexts q).pktDone = true →
        ∃ f, d.txFifo.push p = .ok (true, f) := by
  have hbal : Balanced cfg numQueues d :=
    hr.invariant (Balanced.construct hmax) fun hbal ha hs => hbal.step ha hs
  refine ⟨hbal.fifo.room, hbal.reserved, ?_, ?_⟩
  · intro q hq p s hp
    exact ⟨_, ((hbal.rings q).push_succeeds hbal.fifo (hbal.ring_le hq) hp).1⟩
  · intro q hq p hp hdone
    obtain ⟨hlen, hpos⟩ := (hbal.contexts q).complete hp hdone
    have hle := hbal.context_le hq
    exact ⟨_, (hbal.fifo.push hpos (by omega)).1⟩

open TxDescCacheGlobal (twoEngines plainEnv frameDesc) in
theorem tx_fifo_reservation_two_frames :
    ∃ d, Reach (step twoEngines 64) (Occurs 1) (construct (fun _ => 0) (fun _ => 8) 100) d ∧
      d.txFifo.reserved = 4 ∧ d.frames twoEngines 1 = 4 := by
  obtain ⟨d, hr, hp⟩ := Reach.exists_of_runFrom (step twoEngines 64) (Occurs 1)
    (construct (fun _ => 0) (fun _ => 8) 100)
    [.event 0 (.setTail 1), .event 0 .fetchDescriptors, .event 0 (.fetchComplete 0 [frameDesc 1]),
      .ringTick 0 plainEnv true true, .event 0 (.pktComplete plainEnv 0),
      .write 0 [3, 0, 0, 0, 0, 0, 0, 0, 7, 8, 9], .contextTick 0 plainEnv.headers true]
    (fun d => d.txFifo.reserved = 4) (by decide +kernel)
  have hres : d.txFifo.reserved = 4 := hp
  obtain ⟨_, hframes, _, _⟩ := tx_fifo_reservation (by decide) hr
  exact ⟨d, hr, hres, hframes.symm.trans hres⟩

end TxDevice

end Gem5.IGbE
