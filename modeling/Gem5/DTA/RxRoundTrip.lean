import Gem5.DTA.RxEntry
import Gem5.DTA.RxTransfer

/-!
# Which packets reach the host

The device fills the last flit with zeros and the worker counts every byte of a flit as
payload. They agree only where there is nothing to fill. `Moving` is the worker after `j`
flits, with `n` cache lines sent of which those in `idx` are still under way.
-/

namespace Gem5.DTA

open Option Nat

open List hiding count

open DTARXWorker (idle processDTAResponse dtaWork)

open IGbE.RxM2funcContext (advance logRead freshRequest plainRxEnv)

open IGbE Cells RxM2func

section Nic

variable {cfg : M2funcConfig} {env : RxEnv} {packet : EthPacket} {entry : List UInt8}

/-- The response with flit `k`. -/
def flitResponse (cfg : M2funcConfig) (entry : List UInt8) (k : Nat) : CxlPacket :=
  ⟨0, 0, cell cfg.flitSize entry k, k == 0⟩

theorem drop_marked {n k : Nat} (hk : k < count n entry) :
    (marked n entry).drop k = (cell n entry k, k == 0) :: (marked n entry).drop (k + 1) := by
  have hlen : k < (marked n entry).length := by rw [marked_length]; exact hk
  rw [drop_eq_getElem_cons hlen]
  congr 1
  apply Option.some.inj
  rw [← List.getElem?_eq_getElem hlen, getElem?_marked hk]

theorem readAll_nil {fuel : Nat} {s : RxM2funcContext} (hfifo : s.m2funcRxFifo = []) :
    readAll cfg env fuel s = .ok [] := by
  cases fuel with
  | zero => rfl
  | succ fuel =>
    unfold readAll
    rw [hfifo]
    rfl

theorem position_next {k : Nat} {s : RxM2funcContext} (hn : 0 < cfg.flitSize)
    (hpos : s.Position cfg k) (hfifo : s.m2funcRxFifo = [entry])
    (hmore : k + 1 ≠ count cfg.flitSize entry) :
    ((s.advance cfg entry [] k).logRead .flit (flitResponse cfg entry k)).Position cfg (k + 1) := by
  have hdata : (flitResponse cfg entry k).data = cell cfg.flitSize entry k := rfl
  obtain ⟨j, hj⟩ := hpos.advance hn hfifo hdata rfl
  have hsent := hj.sent
  simp only [advance, if_neg hmore] at hsent
  obtain rfl : k + 1 = j := eq_of_mul_eq_mul_right hn hsent
  exact hj

theorem readAll_eq (hn : 0 < cfg.flitSize) : ∀ {fuel k : Nat} {s : RxM2funcContext},
    s.Position cfg k → s.m2funcRxFifo = [entry] → count cfg.flitSize entry - k ≤ fuel →
    readAll cfg env fuel s = .ok ((marked cfg.flitSize entry).drop k) := by
  intro fuel
  induction fuel with
  | zero =>
    intro k s hpos hfifo hfuel
    have hlt := RxM2funcContext.position_lt hpos hn hfifo
    omega
  | succ fuel ih =>
    intro k s hpos hfifo hfuel
    have hlt := RxM2funcContext.position_lt hpos hn hfifo
    have hfresh : RxM2funcContext.Fresh cfg (freshRequest cfg.flitSize 0 0) :=
      ⟨by simp [freshRequest], rfl⟩
    have hread : s.readM2funcPacket cfg env (freshRequest cfg.flitSize 0 0) =
        .ok (flitResponse cfg entry k,
          (s.advance cfg entry [] k).logRead .flit (flitResponse cfg entry k)) :=
      RxM2funcContext.readM2funcPacket_flit hn hpos hfifo hfresh
    have hrest : readAll cfg env fuel
        ((s.advance cfg entry [] k).logRead .flit (flitResponse cfg entry k)) =
        .ok ((marked cfg.flitSize entry).drop (k + 1)) := by
      by_cases hlast : k + 1 = count cfg.flitSize entry
      · rw [drop_of_length_le (by rw [marked_length]; omega)]
        apply readAll_nil
        simp [advance, logRead, hlast]
      · apply ih (position_next hn hpos hfifo hlast)
        · simpa [advance, logRead, hlast] using hfifo
        · omega
    unfold readAll
    rw [hfifo, drop_marked hlt]
    simp only [hread, sim_ok_bind, hrest]
    rfl

theorem nicFlits_eq (hn : 0 < cfg.flitSize) (hentry : encode env cfg.flitSize packet = .ok entry)
    (hfuel : count cfg.flitSize entry ≤ rxDescriptorSize + packet.length) :
    nicFlits cfg env packet = .ok (marked cfg.flitSize entry) := by
  have hprocess : RxM2funcContext.construct.processRxPacket cfg env packet =
      .ok (RxM2funcContext.construct.pushEntry packet entry) := by
    unfold RxM2funcContext.processRxPacket
    rw [hentry]
    rfl
  have hpos := (RxM2funcContext.Position.construct cfg).process hprocess
  unfold nicFlits
  rw [hprocess, sim_ok_bind, readAll_eq hn hpos rfl (by omega), drop_zero]

end Nic

section Worker

variable {packet : EthPacket} {entry : List UInt8} {c mbuf j n k : Nat}

/-- The worker when `j` flits have come, `n` lines have been sent and `d` of them are
written. -/
def workerAt (c mbuf : Nat) (packet : EthPacket) (entry : List UInt8) (j n d : Nat) :
    DTARXWorker where
  working := true
  mbufAddr := mbuf
  payloadSize := if j = 0 then 0 else packet.length
  receivedPayloadSize := j * 64 - 16
  allPayloadReceived := decide (j = count 64 entry)
  descriptor := if j = 0 then none else some (entry.take 16)
  payloadWCBuffer := packet.data.take (j * 64 - 16)
  sentDMASize := min (n * c) packet.length
  dmaTransferredSize := d * c
  dmaReady := decide (0 < j ∧ (c ≤ j * 64 - 16 ∨ j = count 64 entry))
  dmaComplete := decide (packet.length ≤ d * c)

/-- Cache line `i` of the packet. -/
def lineWrite (c mbuf : Nat) (packet : EthPacket) (i : Nat) : DmaWrite where
  addr := mbuf + i * c
  data := cell c packet.data i ++ List.replicate (c - (cell c packet.data i).length) 0

theorem lineWrite_length (i : Nat) : (lineWrite c mbuf packet i).data.length = c := by
  have hle : (cell c packet.data i).length ≤ c := length_take_le _ _
  simp only [lineWrite, length_append, length_replicate]
  omega

section

variable (he : EntryOf packet entry)
include he

theorem firstResponse_eq (hm : mbuf ≠ 0) : DTARXWorker.firstResponse 64 (cell 64 entry 0) true
        { idle with working := true, mbufAddr := mbuf } =
      .ok (DTARXWorker.extraCxlReq 64 packet.length 48,
        { idle with
          working := true, mbufAddr := mbuf, descriptor := some (entry.take 16)
          payloadSize := packet.length, receivedPayloadSize := 48
          payloadWCBuffer := (entry.take 64).drop 16 }) := by
  have hcell : cell 64 entry 0 = entry.take 64 := by simp [cell]
  have hlen : (entry.take 64).length = 64 := hcell ▸ he.cell_length he.count_pos
  have htake : (entry.take 64).take rxDescriptorSize = entry.take 16 := by
    rw [take_take]
    rfl
  have hdrop : ((entry.take 64).drop rxDescriptorSize).length = 48 := by
    rw [length_drop, hlen]
    rfl
  unfold DTARXWorker.firstResponse
  rw [hcell, if_neg (by rw [hlen]; decide)]
  simp only [idle, htake, hdrop, he.pktLen]
  simp only [DTARXWorker.copyPayload, length_nil, hdrop, zero_add, nil_append]
  rw [if_pos (by decide)]
  simp only [sim_pure, sim_ok_bind, simAssert_of (bne_iff_ne.mpr hm)]
  rfl

theorem workerAt_zero (hpos : 1 ≤ packet.length) : workerAt c mbuf packet entry 0 0 0 =
      { idle with working := true, mbufAddr := mbuf } := by
  have hcount := he.count_pos
  have hne : 0 ≠ count 64 entry := by omega
  simp [workerAt, idle]
  omega

theorem received_all (hj : 0 < j) (hle : j ≤ count 64 entry) :
    j * 64 - 16 = packet.length → j = count 64 entry := by
  have hlen := he.length_eq
  have htight := he.tight
  intro heq
  omega

theorem checkReady_eq (hj : 0 < j) (hle : j ≤ count 64 entry) (hfits : j * 64 - 16 ≤ packet.length)
    (hexact : j = count 64 entry → j * 64 - 16 = packet.length) {w : DTARXWorker}
    (hw : w = { workerAt c mbuf packet entry j n k with
      allPayloadReceived := false, dmaReady := w.dmaReady })
    (hready : w.dmaReady = true → c ≤ j * 64 - 16) :
    w.checkReady c = workerAt c mbuf packet entry j n k := by
  have hall : j * 64 - 16 = packet.length ↔ j = count 64 entry :=
    ⟨received_all he hj hle, hexact⟩
  have hlen : (packet.data.take (j * 64 - 16)).length = j * 64 - 16 := length_take_of_le hfits
  have hj0 : j ≠ 0 := by omega
  rw [hw]
  generalize w.dmaReady = r at hready
  unfold DTARXWorker.checkReady workerAt
  simp only [hlen, hall, hj0, if_false]
  by_cases hlast : j = count 64 entry
  · have hcount := he.count_pos
    simp [hlast, hcount]
  · by_cases hc : c ≤ j * 64 - 16
    · simp [hlast, hc, hj]
    · have hr : r = false := by
        cases r with
        | false => rfl
        | true => exact absurd (hready rfl) hc
      simp [hlast, hc, hr]

theorem feed_first (hm : mbuf ≠ 0) (hpos : 1 ≤ packet.length)
    (hlt : packet.length < 16384) (hlong : 48 ≤ packet.length)
    (hexact : 1 = count 64 entry → 48 = packet.length) :
    processDTAResponse 64 c (cell 64 entry 0) true (workerAt c mbuf packet entry 0 0 0) =
      .ok (count 64 entry - 1, workerAt c mbuf packet entry 1 0 0) := by
  rw [workerAt_zero he hpos]
  unfold processDTAResponse
  simp only [simAssert_true, sim_ok_bind, idle, isNone_none, if_true]
  have hfirst := firstResponse_eq he hm
  simp only [idle] at hfirst
  rw [hfirst, sim_ok_bind, he.extraCxlReq_eq (by omega)]
  simp only [sim_pure, Except.ok.injEq, Prod.mk.injEq, true_and]
  apply checkReady_eq he Nat.one_pos he.count_pos hlong hexact
  · have hpay := he.payload_take (j := 1) hlong
    simp only [workerAt] at hpay ⊢
    rw [hpay]
    simp
    omega
  · intro hfalse
    cases hfalse

theorem payload_append (hj : 0 < j) (hfits : (j + 1) * 64 - 16 ≤ packet.length) :
    packet.data.take (j * 64 - 16) ++ cell 64 entry j = packet.data.take ((j + 1) * 64 - 16) := by
  have hroom := he.room
  rw [← he.payload_take (j := j) (by omega), ← he.payload_take hfits, succ_mul, take_add,
    drop_append_of_le_length (by rw [length_take]; omega)]
  rfl

end

variable (mbuf) in
/-- A later flit is all payload. -/
theorem feed_later (he : EntryOf packet entry) (hlt : packet.length < 16384) (hj : 0 < j)
    (hle : j < count 64 entry) (hfits : (j + 1) * 64 - 16 ≤ packet.length)
    (hexact : j + 1 = count 64 entry → (j + 1) * 64 - 16 = packet.length) :
    processDTAResponse 64 c (cell 64 entry j) false (workerAt c mbuf packet entry j n k) =
      .ok (0, workerAt c mbuf packet entry (j + 1) n k) := by
  have hj0 : j ≠ 0 := by omega
  have hcell := he.cell_length hle
  have htake : (packet.data.take (j * 64 - 16)).length = j * 64 - 16 :=
    length_take_of_le (by change j * 64 - 16 ≤ packet.length; omega)
  have hlater : (workerAt c mbuf packet entry j n k).laterResponse (cell 64 entry j) =
      .ok (0, { workerAt c mbuf packet entry j n k with
        receivedPayloadSize := (j + 1) * 64 - 16
        payloadWCBuffer := packet.data.take ((j + 1) * 64 - 16) }) := by
    have hsum : j * 64 - 16 + 64 = (j + 1) * 64 - 16 := by omega
    unfold DTARXWorker.laterResponse
    rw [simAssert_of (by simp [workerAt]; omega),
      simAssert_of (by simp [workerAt]; omega)]
    simp only [workerAt, hcell, hsum, hj0, if_false]
    rw [simAssert_of (decide_eq_true hfits)]
    simp only [DTARXWorker.copyPayload]
    rw [if_pos (by unfold wcBufferSize; omega), payload_append he hj hfits]
    rfl
  unfold processDTAResponse
  have hworking : (workerAt c mbuf packet entry j n k).working = true := rfl
  rw [simAssert_of hworking, sim_ok_bind, if_neg (by simp [workerAt, hj0]), hlater, sim_ok_bind]
  simp only [sim_pure, Except.ok.injEq, Prod.mk.injEq, true_and]
  apply checkReady_eq he (succ_pos j) hle hfits hexact
  · simp only [workerAt, hj0]
    have hne : ¬ j = count 64 entry := by omega
    simp [hne]
  · intro hready
    simp only [workerAt, decide_eq_true_eq] at hready
    omega

theorem feed_flit (he : EntryOf packet entry) (hm : mbuf ≠ 0) (hpos : 1 ≤ packet.length)
    (hlt : packet.length < 16384) (hj : j < count 64 entry)
    (hfits : (j + 1) * 64 - 16 ≤ packet.length)
    (hexact : j + 1 = count 64 entry → (j + 1) * 64 - 16 = packet.length)
    (hfirst : j = 0 → n = 0 ∧ k = 0) :
    processDTAResponse 64 c (cell 64 entry j) (j == 0) (workerAt c mbuf packet entry j n k) =
      .ok (if j = 0 then count 64 entry - 1 else 0, workerAt c mbuf packet entry (j + 1) n k) := by
  by_cases hj0 : j = 0
  · subst hj0
    obtain ⟨rfl, rfl⟩ := hfirst rfl
    exact feed_first he hm hpos hlt (by omega) (by omega)
  · rw [if_neg hj0, beq_eq_false_iff_ne.mpr hj0]
    exact feed_later mbuf he hlt (by omega) hj hfits hexact

variable (mbuf) in
/-- A flit with more bytes than the packet has left stops the worker. -/
theorem feed_past (he : EntryOf packet entry) (hj : 0 < j) (hle : j < count 64 entry)
    (hfits : j * 64 - 16 ≤ packet.length) (hpast : packet.length < (j + 1) * 64 - 16) :
    processDTAResponse 64 c (cell 64 entry j) false
        (workerAt c mbuf packet entry j n k) = .error .assertion := by
  have hj0 : j ≠ 0 := by omega
  have hcell := he.cell_length hle
  have hover : ¬ j * 64 - 16 + 64 ≤ packet.length := by omega
  unfold processDTAResponse
  have hworking : (workerAt c mbuf packet entry j n k).working = true := rfl
  rw [simAssert_of hworking]
  unfold DTARXWorker.laterResponse
  rw [simAssert_of (by simp [workerAt]; omega),
    simAssert_of (by simp [workerAt]; omega)]
  simp [workerAt, hcell, hj0, hover]

theorem makePacket_eq (hc : 0 < c) (hle : j * 64 - 16 ≤ packet.length) (hsent : n * c < j * 64 - 16)
    (hline : c ≤ j * 64 - 16 - n * c ∨ j * 64 - 16 = packet.length) :
    (workerAt c mbuf packet entry j n k).makePacket c =
      (lineWrite c mbuf packet n, workerAt c mbuf packet entry j (n + 1) k) := by
  have htake : (packet.data.take (j * 64 - 16)).length = j * 64 - 16 := length_take_of_le hle
  have hmin : min (n * c) packet.length = n * c := by omega
  have hsucc : (n + 1) * c = n * c + c := succ_mul n c
  have hdata : packet.data.length = packet.length := rfl
  have hcell : (cell c packet.data n).length = min c (packet.length - n * c) := by
    rw [cell, length_take, length_drop, hdata]
  unfold DTARXWorker.makePacket lineWrite
  simp only [workerAt, htake, hmin, hcell]
  have hsize : (if c ≤ j * 64 - 16 - n * c then c else j * 64 - 16 - n * c) =
      min c (packet.length - n * c) := by
    split <;> omega
  have hbytes : ((packet.data.take (j * 64 - 16)).drop (n * c)).take
      (min c (packet.length - n * c)) = cell c packet.data n := by
    rw [drop_take, take_take, cell]
    rcases hline with hline | hline
    · congr 1
      omega
    · have hshort : (packet.data.drop (n * c)).length = packet.length - n * c := by
        rw [length_drop, hdata]
      rw [take_eq_take_iff]
      omega
  rw [hsize, hbytes]
  congr 2
  omega

variable (mbuf) in
/-- A worker with a line to send sends it. -/
theorem dtaWork_send (hc : 0 < c) (hj : 0 < j) (hle : j * 64 - 16 ≤ packet.length)
    (hlast : j = count 64 entry → j * 64 - 16 = packet.length) (hsent : n * c < j * 64 - 16)
    (hline : c ≤ j * 64 - 16 - n * c ∨ j = count 64 entry) (hk : k ≤ n) :
    (workerAt c mbuf packet entry j n k).dtaWork c =
      .ok (some (lineWrite c mbuf packet n), workerAt c mbuf packet entry j (n + 1) k) := by
  have htake : (packet.data.take (j * 64 - 16)).length = j * 64 - 16 := length_take_of_le hle
  have hmin : min (n * c) packet.length = n * c := by omega
  have hready : (workerAt c mbuf packet entry j n k).wcBufferReadyForDMA c = true := by
    simp only [DTARXWorker.wcBufferReadyForDMA, workerAt, hmin, Bool.or_eq_true,
      Bool.and_eq_true, decide_eq_true_eq]
    omega
  have hdma : (workerAt c mbuf packet entry j n k).dmaReady = true := by
    simp only [workerAt, decide_eq_true_eq]
    omega
  have hdone : k * c ≤ n * c := Nat.mul_le_mul_right c hk
  have hcomplete : ¬ packet.length ≤ k * c := by omega
  unfold dtaWork
  rw [if_pos hready, simAssert_of hdma,
    makePacket_eq hc hle hsent (hline.imp_right hlast)]
  simp [DTARXWorker.checkDone, workerAt, hcomplete]

variable (mbuf) in
/-- A worker with no line to send is free when everything is written, and waits before. -/
theorem dtaWork_wait (he : EntryOf packet entry) (hle : j * 64 - 16 ≤ packet.length)
    (hwait : ¬ c ≤ j * 64 - 16 - n * c) (hsent : j = count 64 entry → packet.length ≤ n * c) :
    (workerAt c mbuf packet entry j n k).dtaWork c =
      .ok (none, if j = count 64 entry ∧ packet.length ≤ k * c then idle
        else workerAt c mbuf packet entry j n k) := by
  have htake : (packet.data.take (j * 64 - 16)).length = j * 64 - 16 := length_take_of_le hle
  have hready : (workerAt c mbuf packet entry j n k).wcBufferReadyForDMA c = false := by
    simp only [DTARXWorker.wcBufferReadyForDMA, workerAt, htake, Bool.or_eq_false_iff,
      Bool.and_eq_false_iff, decide_eq_false_iff_not]
    omega
  unfold dtaWork
  rw [if_neg (by simp [workerAt]), if_neg (by simp [hready])]
  unfold DTARXWorker.checkDone
  by_cases hlast : j = count 64 entry
  · have hj0 : j ≠ 0 := by
      have := he.count_pos
      omega
    have hall : ¬ min (n * c) packet.length < packet.length := by
      omega
    have hpay : (workerAt c mbuf packet entry j n k).payloadSize = packet.length := if_neg hj0
    rw [if_neg (by rw [hpay]; exact hall)]
    simp only [workerAt, hlast, decide_true, Bool.true_and, true_and, decide_eq_true_eq]
    rfl
  · simp [workerAt, hlast]

theorem handleDMACompletion_eq (hm : mbuf ≠ 0) (hj : 0 < j) :
    (workerAt c mbuf packet entry j n k).handleDMACompletion c =
      .ok (workerAt c mbuf packet entry j n (k + 1)) := by
  have hj0 : j ≠ 0 := by omega
  have hsucc : (k + 1) * c = k * c + c := succ_mul k c
  unfold DTARXWorker.handleDMACompletion
  have hworking : (workerAt c mbuf packet entry j n k).working = true := rfl
  rw [simAssert_of hworking]
  by_cases hdone : packet.length ≤ k * c + c
  · rw [if_pos (by simpa [workerAt, hj0] using hdone), simAssert_of (by simpa [workerAt] using hm)]
    simp [workerAt, hsucc, hdone]
  · have hbefore : ¬ packet.length ≤ k * c := by omega
    rw [if_neg (by simpa [workerAt, hj0] using hdone)]
    simp [workerAt, hsucc, hdone, hbefore]

end Worker

section Memory

variable {packet : EthPacket} {c mbuf : Nat}

theorem writeMem_inside (hc : 0 < c) {x : Nat} (hx : x < packet.length) (mem : Nat → UInt8) :
    packet.data[x]? =
      some (RxTransfer.writeMem (lineWrite c mbuf packet (x / c)) mem (mbuf + x)) := by
  have hdiv : x / c * c + x % c = x := by
    rw [mul_comm]
    exact div_add_mod x c
  have hmod : x % c < c := mod_lt x hc
  have hoff : mbuf + x - (mbuf + x / c * c) = x % c := by omega
  have hdata : packet.data.length = packet.length := rfl
  have hget : (cell c packet.data (x / c))[x % c]? = packet.data[x]? := by
    rw [cell, List.getElem?_take_of_lt hmod, List.getElem?_drop, hdiv]
  have hsome : packet.data[x]? = some packet.data[x] := List.getElem?_eq_getElem hx
  have hin : x % c < (cell c packet.data (x / c)).length := by
    rw [cell, length_take, length_drop]
    omega
  unfold RxTransfer.writeMem lineWrite
  rw [if_pos (by simp only; omega)]
  simp only [hoff, List.getElem?_append_left hin, hget, hsome, getD_some]

theorem writeMem_outside (hc : 0 < c) {x i : Nat} (hx : x / c ≠ i) (mem : Nat → UInt8) :
    RxTransfer.writeMem (lineWrite c mbuf packet i) mem (mbuf + x) = mem (mbuf + x) := by
  unfold RxTransfer.writeMem
  split
  · rename_i hle
    have hlow : i * c ≤ x := by
      simp only [lineWrite] at hle
      omega
    have hi : i < x / c :=
      Nat.lt_of_le_of_ne ((Nat.le_div_iff_mul_le hc).mpr hlow) (Ne.symm hx)
    have hhigh : (i + 1) * c ≤ x := (Nat.le_div_iff_mul_le hc).mp hi
    have hsucc : (i + 1) * c = i * c + c := succ_mul i c
    rw [List.getElem?_eq_none (by rw [lineWrite_length]; simp only [lineWrite]; omega)]
    rfl
  · rfl

end Memory

section Run

variable {packet : EthPacket} {entry : List UInt8} {c mbuf : Nat} {s t : RxTransfer}

/-- The worker has `j` flits and has sent `n` lines; those in `idx` are not yet written. -/
structure Moving (c mbuf : Nat) (packet : EthPacket) (entry : List UInt8) (s : RxTransfer)
    (j n : Nat) (idx : List Nat) : Prop where
  worker : s.worker = workerAt c mbuf packet entry j n (n - idx.length)
  flits : s.flits = (marked 64 entry).drop j
  extra : s.extraNeeded = if j = 0 then 0 else count 64 entry - 1
  inFlight : s.inFlight = idx.map (lineWrite c mbuf packet)
  nodup : idx.Nodup
  below : ∀ i ∈ idx, i < n
  le : j ≤ count 64 entry
  sent : n * c < packet.length + c
  behind : j < count 64 entry → n * c ≤ j * 64 - 16
  mem : ∀ x < packet.length, x / c < n → x / c ∉ idx →
    packet.data[x]? = some (s.mem (mbuf + x))

structure Done (mbuf : Nat) (packet : EthPacket) (entry : List UInt8) (s : RxTransfer) : Prop where
  worker : s.worker = idle
  flits : s.flits = []
  extra : s.extraNeeded = count 64 entry - 1
  inFlight : s.inFlight = []
  mem : ∀ x < packet.length, packet.data[x]? = some (s.mem (mbuf + x))

namespace Moving

variable {j n : Nat} {idx : List Nat}

theorem length_le (h : Moving c mbuf packet entry s j n idx) : idx.length ≤ n := by
  have hsub : idx ⊆ List.range n := by
    intro i hi
    exact List.mem_range.mpr (h.below i hi)
  simpa using (h.nodup.subperm hsub).length_le

theorem start (mem : Nat → UInt8) (he : EntryOf packet entry) (hpos : 1 ≤ packet.length) :
    Moving c mbuf packet entry (RxTransfer.start (marked 64 entry) mbuf mem) 0 0 [] where
  worker := (workerAt_zero he hpos).symm
  flits := rfl
  extra := rfl
  inFlight := rfl
  nodup := List.nodup_nil
  below := by simp
  le := zero_le _
  sent := by omega
  behind := by omega
  mem := by simp

theorem flits_pos (h : Moving c mbuf packet entry s j n idx) (he : EntryOf packet entry)
    (hc : 0 < c) (hn : 0 < n) : 0 < j := by
  have hcount := he.count_pos
  have hbehind := h.behind
  have hmul : 0 < n * c := Nat.mul_pos hn hc
  omega

variable (he : EntryOf packet entry) (hm : mbuf ≠ 0) (hc : 0 < c) (hpos : 1 ≤ packet.length)
  (hlt : packet.length < 16384) (hexact : count 64 entry * 64 = 16 + packet.length)
include he hm hc hpos hlt hexact

theorem feed (h : Moving c mbuf packet entry s j n idx) (hj : j < count 64 entry) :
    ∃ t, s.feed c = .ok t ∧ Moving c mbuf packet entry t (j + 1) n idx := by
  have hfirst : j = 0 → n = 0 ∧ n - idx.length = 0 := by
    intro hj0
    have hn : ¬ 0 < n := fun hn => absurd (h.flits_pos he hc hn) (by omega)
    omega
  unfold RxTransfer.feed
  rw [h.flits, drop_marked hj, h.worker]
  simp only [feed_flit he hm hpos hlt hj (by omega) (by omega) hfirst, sim_ok_bind]
  refine ⟨_, rfl, ⟨rfl, rfl, ?_, h.inFlight, h.nodup, h.below, hj, h.sent, ?_, h.mem⟩⟩
  · simp only [h.extra, succ_ne_zero, if_false]
    split <;> omega
  · intro _
    have hbehind := h.behind hj
    omega

omit he hm hpos hlt in
/-- One more line is under way. -/
theorem send (h : Moving c mbuf packet entry s j n idx) (hsent : n * c < j * 64 - 16)
    (hline : c ≤ j * 64 - 16 - n * c ∨ j = count 64 entry) :
    ∃ t, s.step c .work = .ok t ∧ Moving c mbuf packet entry t j (n + 1) (idx ++ [n]) := by
  have hle := h.le
  have hsucc : (n + 1) * c = n * c + c := succ_mul n c
  have hwork := dtaWork_send mbuf (k := n - idx.length) hc (by omega)
    (by omega : j * 64 - 16 ≤ packet.length) (by omega) hsent hline (sub_le n _)
  simp only [RxTransfer.step, h.worker, hwork, sim_ok_bind]
  refine ⟨_, rfl, ⟨?_, h.flits, h.extra, ?_, ?_, ?_, hle, by omega, by omega, ?_⟩⟩
  · rw [length_append, length_singleton, Nat.add_sub_add_right]
  · simp [h.inFlight]
  · refine List.nodup_append.mpr ⟨h.nodup, nodup_singleton n, ?_⟩
    intro a ha b hb
    have hlow := h.below a ha
    have hb := List.mem_singleton.mp hb
    omega
  · intro i hi
    rcases List.mem_append.mp hi with hi | hi
    · exact lt_succ_of_lt (h.below i hi)
    · exact List.mem_singleton.mp hi ▸ lt_succ_self n
  · intro x hx hdiv hnot
    have hne : x / c ≠ n := by
      rintro rfl
      exact hnot (mem_append_right idx mem_cons_self)
    exact h.mem x hx (by omega) fun hin => hnot (mem_append_left _ hin)

omit he hm hlt hexact in
/-- When as many bytes are written as the packet has, nothing is under way. -/
theorem all_written (h : Moving c mbuf packet entry s j n idx)
    (hdone : packet.length ≤ (n - idx.length) * c) :
    idx = [] ∧ ∀ x < packet.length, packet.data[x]? = some (s.mem (mbuf + x)) := by
  have hsent := h.sent
  have hn : 0 < n := by
    by_contra hzero
    obtain rfl : n = 0 := by omega
    rw [Nat.zero_sub] at hdone
    omega
  have hprev : (n - 1) * c < (n - idx.length) * c := by
    have hsplit : (n - 1) * c + c = n * c := by
      rw [← succ_mul, succ_eq_add_one, Nat.sub_add_cancel hn]
    omega
  have hlt := Nat.lt_of_mul_lt_mul_right hprev
  obtain rfl : idx = [] := List.length_eq_zero_iff.mp (by omega)
  refine ⟨rfl, fun x hx => h.mem x hx ?_ not_mem_nil⟩
  exact (Nat.div_lt_iff_lt_mul hc).mpr (lt_of_lt_of_le hx hdone)

omit hm hlt in
/-- Something is sent, or the worker is done, or it waits. -/
theorem work (h : Moving c mbuf packet entry s j n idx) : ∃ t, s.step c .work = .ok t ∧
      (Done mbuf packet entry t ∨
        (n < packet.length ∧ Moving c mbuf packet entry t j (n + 1) (idx ++ [n])) ∨
        (¬ (j = count 64 entry ∧ idx = []) ∧ Moving c mbuf packet entry t j n idx)) := by
  have hle := h.le
  by_cases hsend : n * c < j * 64 - 16 ∧ (c ≤ j * 64 - 16 - n * c ∨ j = count 64 entry)
  · obtain ⟨t, ht, hmoving⟩ := h.send hc hexact hsend.1 hsend.2
    have hn : n ≤ n * c := Nat.le_mul_of_pos_right n hc
    exact ⟨t, ht, .inr (.inl ⟨by omega, hmoving⟩)⟩
  · have hall : j = count 64 entry → packet.length ≤ n * c := by omega
    have hwork := dtaWork_wait mbuf (n := n) (k := n - idx.length) he
      (by omega : j * 64 - 16 ≤ packet.length) (by omega : ¬ c ≤ j * 64 - 16 - n * c) hall
    simp only [RxTransfer.step, h.worker, hwork, sim_ok_bind, toList_none, append_nil]
    refine ⟨_, rfl, ?_⟩
    by_cases hdone : j = count 64 entry ∧ packet.length ≤ (n - idx.length) * c
    · obtain ⟨rfl, hmem⟩ := h.all_written hc hpos hdone.2
      have hflits : s.flits = [] := by
        rw [h.flits, drop_of_length_le (by rw [marked_length, hdone.1])]
      have hj0 : j ≠ 0 := by
        have := he.count_pos
        omega
      left
      exact ⟨if_pos hdone, hflits, by rw [h.extra, if_neg hj0], h.inFlight, hmem⟩
    · right; right
      refine ⟨?_, ⟨if_neg hdone, h.flits, h.extra, h.inFlight, h.nodup, h.below, hle, h.sent,
        h.behind, h.mem⟩⟩
      rintro ⟨hlast, rfl⟩
      exact hdone ⟨hlast, hall hlast⟩

omit hpos hlt hexact in
/-- One of the writes is done. -/
theorem complete (h : Moving c mbuf packet entry s j n idx) {i k : Nat} (hi : idx[i]? = some k) :
    ∃ t, s.complete i = .ok t ∧ Moving c mbuf packet entry t j n (idx.eraseIdx i) := by
  have hlen : i < idx.length := (List.getElem?_eq_some_iff.mp hi).1
  have hle := h.length_le
  have hj : 0 < j := h.flits_pos he hc (by omega)
  have hget : s.inFlight[i]? = some (lineWrite c mbuf packet k) := by
    rw [h.inFlight, List.getElem?_map, hi]
    rfl
  have herase : (idx.eraseIdx i).length = idx.length - 1 := length_eraseIdx_of_lt hlen
  have hcount : n - (idx.eraseIdx i).length = n - idx.length + 1 := by omega
  unfold RxTransfer.complete
  rw [hget]
  simp only [h.worker, lineWrite_length, handleDMACompletion_eq hm hj]
  refine ⟨_, rfl, ⟨by rw [hcount], h.flits, h.extra, ?_, ?_, ?_, h.le, h.sent, h.behind, ?_⟩⟩
  · rw [h.inFlight, eraseIdx_map]
  · exact h.nodup.sublist (eraseIdx_sublist idx i)
  · intro b hb
    exact h.below b (mem_of_mem_eraseIdx hb)
  · intro x hx hdiv hnot
    by_cases hk : x / c = k
    · subst hk
      exact writeMem_inside hc hx s.mem
    · simp only [writeMem_outside hc hk]
      apply h.mem x hx hdiv
      intro hidx
      apply hnot
      obtain ⟨b, hb, hval⟩ := getElem_of_mem hidx
      refine List.mem_eraseIdx_iff_getElem.mpr ⟨b, hb, ?_, hval⟩
      rintro rfl
      rw [List.getElem?_eq_getElem hb] at hi
      exact hk (hval.symm.trans (Option.some.inj hi))

theorem finishes : ∀ {m : Nat} {s : RxTransfer} {j n : Nat} {idx : List Nat},
    Moving c mbuf packet entry s j n idx →
    (count 64 entry - j) + 2 * (packet.length - n) + idx.length ≤ m →
    ∃ u, RxTransfer.Goes c s u ∧ Done mbuf packet entry u := by
  intro m
  induction m with
  | zero =>
    intro s j n idx h hm0
    obtain rfl : idx = [] := List.length_eq_zero_iff.mp (by omega)
    obtain ⟨t, ht, hdone | ⟨hn, _⟩ | ⟨hnot, _⟩⟩ := h.work he hc hpos hexact
    · exact ⟨t, .single (a := .work) trivial ht, hdone⟩
    · omega
    · exact absurd ⟨by have := h.le; omega, rfl⟩ hnot
  | succ m ih =>
    intro s j n idx h hmeasure
    by_cases hj : j < count 64 entry
    · obtain ⟨t, ht, hmoving⟩ := h.feed he hm hc hpos hlt hexact hj
      obtain ⟨u, hu, hdone⟩ := ih hmoving (by omega)
      exact ⟨u, .trans (.single (a := .feed) trivial ht) hu, hdone⟩
    · cases idx with
      | nil =>
        obtain ⟨t, ht, hdone | ⟨hn, hmoving⟩ | ⟨hnot, _⟩⟩ := h.work he hc hpos hexact
        · exact ⟨t, .single (a := .work) trivial ht, hdone⟩
        · obtain ⟨u, hu, hdone⟩ := ih hmoving (by
            simp only [length_append, length_nil, length_singleton] at hmeasure ⊢
            omega)
          exact ⟨u, .trans (.single (a := .work) trivial ht) hu, hdone⟩
        · exact absurd ⟨by have := h.le; omega, rfl⟩ hnot
      | cons i idx =>
        obtain ⟨t, ht, hmoving⟩ := h.complete he hm hc (i := 0) rfl
        obtain ⟨u, hu, hdone⟩ := ih hmoving (by
          simp only [eraseIdx_cons_zero, length_cons] at hmeasure ⊢
          omega)
        exact ⟨u, .trans (.single (a := .complete 0) trivial ht) hu, hdone⟩

end Moving

def Under (c mbuf : Nat) (packet : EthPacket) (entry : List UInt8) (s : RxTransfer) : Prop :=
  Done mbuf packet entry s ∨ ∃ j n idx, Moving c mbuf packet entry s j n idx

section Exact

variable (he : EntryOf packet entry) (hm : mbuf ≠ 0) (hc : 0 < c) (hpos : 1 ≤ packet.length)
  (hlt : packet.length < 16384) (hexact : count 64 entry * 64 = 16 + packet.length)
include he hm hc hpos hlt hexact

attribute [local simp] RxTransfer.step

theorem Under.step (h : Under c mbuf packet entry s) (a : RxTransferAct) :
    ∃ t, s.step c a = .ok t ∧ Under c mbuf packet entry t := by
  rcases h with h | ⟨j, n, idx, h⟩
  · refine ⟨s, ?_, .inl h⟩
    cases a with
    | feed => simp [RxTransfer.feed, h.flits]
    | work =>
      simp only [RxTransfer.step, h.worker, dtaWork, idle, Bool.not_false,
        if_true, sim_pure, sim_ok_bind, toList_none, append_nil]
      rw [← idle, ← h.worker]
    | complete i => simp [RxTransfer.complete, h.inFlight]
  · cases a with
    | feed =>
      by_cases hj : j < count 64 entry
      · obtain ⟨t, ht, hmoving⟩ := h.feed he hm hc hpos hlt hexact hj
        exact ⟨t, ht, .inr ⟨_, _, _, hmoving⟩⟩
      · refine ⟨s, ?_, .inr ⟨j, n, idx, h⟩⟩
        have hflits : s.flits = [] := by
          rw [h.flits, drop_of_length_le (by rw [marked_length]; omega)]
        simp [RxTransfer.feed, hflits]
    | work =>
      obtain ⟨t, ht, hdone | ⟨_, hmoving⟩ | ⟨_, hmoving⟩⟩ := h.work he hc hpos hexact
      · exact ⟨t, ht, .inl hdone⟩
      · exact ⟨t, ht, .inr ⟨_, _, _, hmoving⟩⟩
      · exact ⟨t, ht, .inr ⟨_, _, _, hmoving⟩⟩
    | complete i =>
      cases hi : idx[i]? with
      | none =>
        refine ⟨s, ?_, .inr ⟨j, n, idx, h⟩⟩
        have hnone : s.inFlight[i]? = none := by rw [h.inFlight, List.getElem?_map, hi]; rfl
        simp [RxTransfer.complete, hnone]
      | some k =>
        obtain ⟨t, ht, hmoving⟩ := h.complete he hm hc hi
        exact ⟨t, ht, .inr ⟨_, _, _, hmoving⟩⟩

theorem Under.goes {mem : Nat → UInt8}
    (h : RxTransfer.Goes c (RxTransfer.start (marked 64 entry) mbuf mem) t) :
    Under c mbuf packet entry t := by
  apply Reach.invariant (P := Under c mbuf packet entry) h
  · exact .inr ⟨0, 0, [], Moving.start mem he hpos⟩
  · intro s t a hs _ ht
    obtain ⟨u, hu, hunder⟩ := hs.step he hm hc hpos hlt hexact a
    exact eq_of_ok hu ht ▸ hunder

theorem delivers_exact (mem : Nat → UInt8) :
    (RxTransfer.start (marked 64 entry) mbuf mem).Delivers c mbuf packet := by
  have hunder : ∀ {t}, RxTransfer.Goes c (RxTransfer.start (marked 64 entry) mbuf mem) t →
      Under c mbuf packet entry t := fun ht => Under.goes he hm hc hpos hlt hexact ht
  have hempty : ∀ {j : Nat}, j ≤ count 64 entry →
      ((marked 64 entry).drop j = [] ↔ j = count 64 entry) := by
    intro j hj
    rw [drop_eq_nil_iff, marked_length]
    omega
  constructor
  · intro t ht a
    obtain ⟨u, hu, _⟩ := (hunder ht).step he hm hc hpos hlt hexact a
    exact ⟨u, hu⟩
  · intro t ht hworking
    rcases hunder ht with h | ⟨j, n, idx, h⟩
    · rw [h.worker] at hworking
      cases hworking
    · rw [h.flits, hempty h.le, h.worker]
      exact decide_eq_true_iff
  · intro t ht hworking
    rcases hunder ht with h | ⟨j, n, idx, h⟩
    · exact h.flits
    · rw [h.worker] at hworking
      cases hworking
  · intro t ht hflits
    change (marked 64 entry).length = _
    rw [marked_length]
    rcases hunder ht with h | ⟨j, n, idx, h⟩
    · rw [h.extra]
      omega
    · rw [h.flits, hempty h.le] at hflits
      rw [h.extra, if_neg (by omega)]
      omega
  · intro t ht hworking i
    rcases hunder ht with h | ⟨j, n, idx, h⟩
    · split
      · rename_i hi
        exact h.mem i hi
      · rename_i hi
        exact List.getElem?_eq_none (not_lt.mp hi)
    · rw [h.worker] at hworking
      cases hworking
  · intro t ht
    rcases hunder ht with h | ⟨j, n, idx, h⟩
    · exact ⟨t, .refl t, by rw [h.worker]; rfl⟩
    · obtain ⟨u, hu, hdone⟩ := h.finishes he hm hc hpos hlt hexact le_rfl
      exact ⟨u, hu, by rw [hdone.worker]; rfl⟩

end Exact

section Padded

variable (he : EntryOf packet entry) (hm : mbuf ≠ 0) (hpos : 1 ≤ packet.length)
  (hlt : packet.length < 16384)
include he hm hpos

theorem not_delivers_short (mem : Nat → UInt8) (hshort : packet.length < 48) :
    ¬ (RxTransfer.start (marked 64 entry) mbuf mem).Delivers c mbuf packet := by
  intro h
  have hlen := he.length_eq
  have hroom := he.room
  have htight := he.tight
  have hone : count 64 entry = 1 := by omega
  have hflits : marked 64 entry = [(cell 64 entry 0, true)] := by
    have hfirst : 0 < count 64 entry := by omega
    have hdrop := drop_marked hfirst
    have hrest : (marked 64 entry).drop (0 + 1) = [] :=
      drop_of_length_le (by rw [marked_length, hone])
    rwa [hrest] at hdrop
  have hfirst := firstResponse_eq he hm
  have hne : ¬ 48 = packet.length := by omega
  have hfeed : ∃ t, (RxTransfer.start (marked 64 entry) mbuf mem).step c .feed = .ok t ∧
      t.flits = [] ∧ t.worker.working = true ∧ t.worker.allPayloadReceived = false := by
    simp only [RxTransfer.step, RxTransfer.feed, RxTransfer.start, hflits,
      processDTAResponse, idle]
    simp only [idle] at hfirst
    simp only [hfirst, sim_ok_bind, DTARXWorker.checkReady, if_neg hne]
    exact ⟨_, rfl, rfl, rfl, rfl⟩
  obtain ⟨t, ht, hnil, hworking, hall⟩ := hfeed
  have hlast := (h.last (.single (a := .feed) trivial ht) hworking).mpr hnil
  rw [hall] at hlast
  cases hlast

include hlt

theorem fed (mem : Nat → UInt8) :
    ∀ {j : Nat}, j < count 64 entry → ∃ t,
      RxTransfer.Goes c (RxTransfer.start (marked 64 entry) mbuf mem) t ∧
        t.worker = workerAt c mbuf packet entry j 0 0 ∧ t.flits = (marked 64 entry).drop j := by
  have hlen := he.length_eq
  have htight := he.tight
  intro j
  induction j with
  | zero =>
    intro _
    exact ⟨_, .refl _, (workerAt_zero he hpos).symm, rfl⟩
  | succ j ih =>
    intro hj
    obtain ⟨t, ht, hworker, hflits⟩ := ih (by omega)
    have hfeed := feed_flit (c := c) (n := 0) (k := 0) he hm hpos hlt (j := j) (by omega)
      (by omega) (by omega) fun _ => ⟨rfl, rfl⟩
    have hstep : ∃ u, t.step c .feed = .ok u ∧ u.worker = workerAt c mbuf packet entry (j + 1) 0 0 ∧
        u.flits = (marked 64 entry).drop (j + 1) := by
      simp only [RxTransfer.step, RxTransfer.feed]
      rw [hflits, drop_marked (by omega), hworker]
      simp only [hfeed, sim_ok_bind]
      exact ⟨_, rfl, rfl, rfl⟩
    obtain ⟨u, hu, hrest⟩ := hstep
    exact ⟨u, ht.snoc (a := .feed) trivial hu, hrest⟩

theorem not_delivers_long (mem : Nat → UInt8) (hlong : 48 ≤ packet.length)
    (hpad : count 64 entry * 64 ≠ 16 + packet.length) :
    ¬ (RxTransfer.start (marked 64 entry) mbuf mem).Delivers c mbuf packet := by
  intro h
  have hlen := he.length_eq
  have hroom := he.room
  have htight := he.tight
  obtain ⟨j, hj⟩ : ∃ j, count 64 entry = j + 1 := ⟨count 64 entry - 1, by omega⟩
  obtain ⟨t, ht, hworker, hflits⟩ := fed (c := c) he hm hpos hlt mem (j := j) (by omega)
  obtain ⟨u, hu⟩ := h.noAssert ht .feed
  have hpast := feed_past mbuf (c := c) (n := 0) (k := 0) he (j := j) (by omega)
    (by omega) (by omega) (by omega)
  have hj0 : (j == 0) = false := beq_eq_false_iff_ne.mpr (by omega)
  simp only [RxTransfer.step, RxTransfer.feed] at hu
  rw [hflits, drop_marked (by omega)] at hu
  simp only [hworker, hj0, hpast] at hu
  cases hu

end Padded

end Run

section Packets

variable {cfg : M2funcConfig} {env : RxEnv} {cacheLineSize : Nat} {packet : EthPacket}

theorem nicFlits_marked {entry : List UInt8} (hflit : cfg.flitSize = 64)
    (hentry : encode env 64 packet = .ok entry) (he : EntryOf packet entry) :
    nicFlits cfg env packet = .ok (marked 64 entry) := by
  have hlen := he.length_eq
  have htight := he.tight
  rw [← hflit] at hentry
  have heq := nicFlits_eq (by omega) hentry (by rw [hflit]; unfold rxDescriptorSize; omega)
  rwa [hflit] at heq

theorem RoundTrip.full_flits (hflit : cfg.flitSize = 64) (htype : env.desctype = .advOneBuf)
    (hpos : 1 ≤ packet.length) (hlt : packet.length < 16384)
    (h : RoundTrip cfg env cacheLineSize packet) :
    packet.length < RxDescCache.bufferLen env ∧ packet.length % 64 = 48 := by
  obtain ⟨flits, hok, hdelivers⟩ := h
  obtain ⟨entry, hentry⟩ : ∃ entry, encode env 64 packet = .ok entry := by
    obtain ⟨s, hs, _⟩ := bind_eq_ok.mp hok
    obtain ⟨entry, hentry, _⟩ := bind_eq_ok.mp hs
    exact ⟨entry, hflit ▸ hentry⟩
  obtain ⟨hfits, he⟩ := encode_entryOf htype (by omega) hentry
  obtain rfl := Except.ok.inj ((nicFlits_marked hflit hentry he).symm.trans hok)
  have hone := hdelivers 1 (fun _ => 0) (by decide)
  have hlong : 48 ≤ packet.length := by
    by_contra hshort
    exact not_delivers_short he (by decide) hpos _ (by omega) hone
  have hexact : count 64 entry * 64 = 16 + packet.length := by
    by_contra hpad
    exact not_delivers_long he (by decide) hpos hlt _ hlong hpad hone
  exact ⟨hfits, by omega⟩

theorem RoundTrip.of_full_flits (hflit : cfg.flitSize = 64) (htype : env.desctype = .advOneBuf)
    (hc : 0 < cacheLineSize) (hpos : 1 ≤ packet.length) (hlt : packet.length < 16384)
    (hfits : packet.length < RxDescCache.bufferLen env) (hmod : packet.length % 64 = 48) :
    RoundTrip cfg env cacheLineSize packet := by
  obtain ⟨entry, hentry⟩ := encode_oneBuf_returns htype hfits hlt
  have he := (encode_entryOf htype (by omega) hentry).2
  have hlen := he.length_eq
  have hroom := he.room
  have htight := he.tight
  refine ⟨marked 64 entry, nicFlits_marked hflit hentry he, ?_⟩
  intro mbuf mem hm
  exact delivers_exact he hm hc hpos hlt (by omega) mem

end Packets

/-- The receive path from the device to the host is right for the packets that fit the
buffer of the descriptor and whose flits need no filling, and for no others. -/
theorem rx_round_trip (cfg : M2funcConfig) (env : RxEnv) (cacheLineSize : Nat) (packet : EthPacket)
    (hflit : cfg.flitSize = 64) (htype : env.desctype = .advOneBuf) (hc : 0 < cacheLineSize)
    (hpos : 1 ≤ packet.length) (hlt : packet.length < 16384) :
    RoundTrip cfg env cacheLineSize packet ↔
      packet.length < RxDescCache.bufferLen env ∧ packet.length % 64 = 48 := by
  constructor
  · intro h
    exact h.full_flits hflit htype hpos hlt
  · rintro ⟨hfits, hmod⟩
    exact .of_full_flits hflit htype hc hpos hlt hfits hmod

theorem rx_round_trip_full_flits :
    RoundTrip (RxM2funcContext.dtaContext 64) plainRxEnv 64 ⟨List.replicate 112 7⟩ :=
  (rx_round_trip _ _ _ _ rfl rfl (by decide) (by decide) (by decide)).mpr (by decide)

/-- A frame of 60 bytes takes two flits as well, and does not. -/
theorem sixty_bytes_not_delivered :
    (⟨List.replicate 60 7⟩ : EthPacket).length < RxDescCache.bufferLen plainRxEnv ∧
      ¬ RoundTrip (RxM2funcContext.dtaContext 64) plainRxEnv 64 ⟨List.replicate 60 7⟩ := by
  refine ⟨by decide, fun h => ?_⟩
  have hfull := h.full_flits rfl rfl (by decide) (by decide)
  exact absurd hfull.2 (by decide)

end Gem5.DTA
