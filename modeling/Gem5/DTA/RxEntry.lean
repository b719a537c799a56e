import Gem5.DTA.RxWorker
import Gem5.M2func.RxStream

/-!
# Entries with an advanced descriptor

What the device makes of a packet when it uses advanced one-buffer descriptors: the
descriptor with the length of the packet, the packet and zeros up to whole flits.
-/

namespace Gem5.DTA

open IGbE Cells RxM2func

section Entry

variable {env : RxEnv} {packet : EthPacket} {entry desc : List UInt8}

theorem rxDesc_oneBuf (htype : env.desctype = .advOneBuf) :
    (packet.length < RxDescCache.bufferLen env → ∃ desc, rxDesc env packet = .ok desc) ∧
      ∀ desc, rxDesc env packet = .ok desc → packet.length < RxDescCache.bufferLen env ∧
        desc.length = 16 ∧ pktLen desc = packet.length % 2 ^ 16 := by
  constructor
  · intro hfits
    unfold rxDesc
    rw [htype]
    simp only [simAssert_of (decide_eq_true hfits), sim_ok_bind]
    exact ⟨_, rfl⟩
  · intro desc hdesc
    have hlen := rxDesc_length hdesc
    rw [htype] at hlen
    unfold rxDesc at hdesc
    rw [htype] at hdesc
    obtain ⟨_, hassert, rfl⟩ := map_eq_ok.mp hdesc
    refine ⟨by simpa [simAssert_eq_ok] using hassert, hlen, ?_⟩
    have htake : ∀ a b : List UInt8, a.length = 12 → b.length = 2 →
        pktLen (a ++ littleEndian 2 packet.length ++ b) = packet.length % 2 ^ 16 := by
      intro a b ha hb
      unfold pktLen
      rw [List.append_assoc, ← ha, List.drop_left, List.take_left' (by simp),
        ofLittleEndian_littleEndian]
      rfl
    apply htake
    · cases env.pcsd <;> simp
    · simp

structure EntryOf (packet : EthPacket) (entry : List UInt8) : Prop where
  data : (entry.drop 16).take packet.length = packet.data
  pktLen : pktLen (entry.take 16) = packet.length
  dvd : 64 ∣ entry.length
  room : 16 + packet.length ≤ entry.length
  tight : entry.length < 16 + packet.length + 64

theorem encode_entryOf (htype : env.desctype = .advOneBuf) (hlt : packet.length < 2 ^ 16)
    (h : encode env 64 packet = .ok entry) :
    packet.length < RxDescCache.bufferLen env ∧ EntryOf packet entry := by
  obtain ⟨desc, hdesc, hpack⟩ := encode_cases h
  obtain ⟨hfits, hlen, hpkt⟩ := (rxDesc_oneBuf htype).2 desc hdesc
  obtain ⟨heq, hsize⟩ := pack_eq hpack
  have hb := cxlPktSize_bounds (n := 64) (m := desc.length + packet.data.length) (by decide) (by
    have : packet.data.length < 2 ^ 16 := hlt
    omega)
  have hdata : packet.data.length = packet.length := rfl
  refine ⟨hfits, ⟨?_, ?_, ?_, ?_, ?_⟩⟩
  · rw [heq, List.append_assoc, ← hlen, List.drop_left]
    exact List.take_left' rfl
  · rw [heq, List.append_assoc, List.take_left' hlen, hpkt, Nat.mod_eq_of_lt (by omega)]
  · rw [hsize]
    exact dvd_cxlPktSize _ _
  · omega
  · omega

theorem encode_oneBuf_returns (htype : env.desctype = .advOneBuf)
    (hfits : packet.length < RxDescCache.bufferLen env) (hlt : packet.length < 16384) :
    ∃ entry, encode env 64 packet = .ok entry := by
  obtain ⟨desc, hdesc⟩ := (rxDesc_oneBuf htype).1 hfits
  obtain ⟨_, hlen, _⟩ := (rxDesc_oneBuf htype).2 desc hdesc
  have hdata : packet.data.length < 16384 := hlt
  obtain ⟨entry, hentry⟩ := pack_returns (n := 64) desc packet.data (by decide) (by omega)
  refine ⟨entry, ?_⟩
  unfold encode
  rw [hdesc]
  exact hentry

end Entry

namespace EntryOf

variable {packet : EthPacket} {entry : List UInt8} {j : Nat}

section

variable (he : EntryOf packet entry)
include he

theorem length_eq : entry.length = count 64 entry * 64 :=
  (Nat.div_mul_cancel he.dvd).symm

theorem payload_take (hj : j * 64 - 16 ≤ packet.length) :
    (entry.take (j * 64)).drop 16 = packet.data.take (j * 64 - 16) := by
  rw [List.drop_take, ← he.data, List.take_take, Nat.min_eq_left hj]

theorem cell_length (hj : j < count 64 entry) :
    (cell 64 entry j).length = 64 := Cells.cell_length he.dvd hj

theorem count_pos : 0 < count 64 entry := by
  have hlen := he.length_eq
  have hroom := he.room
  omega

theorem extraCxlReq_eq (hlt : packet.length < 2 ^ 16) :
    DTARXWorker.extraCxlReq 64 packet.length 48 = count 64 entry - 1 := by
  have hlen := he.length_eq
  have hroom := he.room
  have htight := he.tight
  unfold DTARXWorker.extraCxlReq
  omega

end

end EntryOf

end Gem5.DTA
