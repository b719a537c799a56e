import Gem5.DTA.RxWorker
import Gem5.Shared.Reachability

/-!
# The memory that a receive worker writes

Every write request of a worker has the size of a cache line, also that for the rest of a packet,
which is filled up with zeros. Flits of any size arrive in any order with the work of the worker.
The run records the write requests, the length in the descriptor and the bytes of payload received.
-/

namespace Gem5.DTA

open List Bool

def hits (writes : List DmaWrite) (a : Nat) : Nat :=
  writes.countP fun d => decide (d.addr ≤ a ∧ a < d.addr + d.data.length)

def WritesExactly (writes : List DmaWrite) (start size : Nat) : Prop :=
  ∀ a, hits writes a = if start ≤ a ∧ a < start + size then 1 else 0

/-- The writes are consecutive lines of `c` bytes. -/
def Lines (c mbuf : Nat) (writes : List DmaWrite) : Prop :=
  ∀ k (hk : k < writes.length), writes[k].addr = mbuf + k * c ∧ writes[k].data.length = c

section Lines

variable {c mbuf size : Nat} {writes : List DmaWrite} {d : DmaWrite}

theorem Lines.snoc (h : Lines c mbuf writes) (haddr : d.addr = mbuf + writes.length * c)
    (hlen : d.data.length = c) : Lines c mbuf (writes ++ [d]) := by
  intro k hk
  by_cases hlt : k < writes.length
  · rw [getElem_append_left hlt]
    exact h k hlt
  · have heq : k = writes.length := by
      rw [length_append, length_singleton] at hk
      omega
    subst heq
    simp [haddr, hlen]

theorem Lines.writesExactly (h : Lines c mbuf writes) :
    WritesExactly writes mbuf (writes.length * c) := by
  induction writes using List.reverseRecOn with
  | nil =>
    intro a
    rw [if_neg (by simp)]
    rfl
  | append_singleton writes d ih =>
    have hfirst : Lines c mbuf writes := by
      intro k hk
      have hline := h k (by rw [length_append]; omega)
      rwa [getElem_append_left hk] at hline
    have hlast := h writes.length (by simp)
    rw [getElem_append_right le_rfl] at hlast
    simp only [Nat.sub_self, getElem_cons_zero] at hlast
    have hend : (writes ++ [d]).length * c = writes.length * c + c := by
      rw [length_append, length_singleton, Nat.add_mul, Nat.one_mul]
    intro a
    have hold := ih hfirst a
    rw [hits] at hold
    rw [hits, countP_append, hold, countP_singleton, hlast.1, hend]
    generalize writes.length * c = m
    simp only [decide_eq_true_eq]
    split <;> split <;> split <;> omega

theorem WritesExactly.size_unique {m : Nat} (h : WritesExactly writes mbuf size)
    (k : WritesExactly writes mbuf m) : size = m := by
  rcases Nat.lt_trichotomy size m with hlt | heq | hlt
  · have hsize := h (mbuf + size)
    rw [k (mbuf + size), if_pos (by omega), if_neg (by omega)] at hsize
    omega
  · exact heq
  · have hm := k (mbuf + m)
    rw [h (mbuf + m), if_pos (by omega), if_neg (by omega)] at hm
    omega

theorem Lines.writesExactly_iff (h : Lines c mbuf writes) :
    WritesExactly writes mbuf size ↔ writes.length * c = size := by
  constructor
  · exact fun hsize => h.writesExactly.size_unique hsize
  · rintro rfl
    exact h.writesExactly

end Lines

structure RxWrites where
  worker : DTARXWorker
  mbuf : Nat
  writes : List DmaWrite
  /-- The length in the descriptor. -/
  payload : Option Nat
  received : Nat

inductive RxWritesAct where
  | recv (data : List UInt8) (ddioHeader : Bool)
  | work
  | complete (size : Nat)

namespace RxWrites

def start (mbuf : Nat) : RxWrites :=
  ⟨{ DTARXWorker.idle with working := true, mbufAddr := mbuf }, mbuf, [], none, 0⟩

def payloadIn (w : DTARXWorker) (data : List UInt8) : Nat :=
  if w.descriptor.isNone then data.length - rxDescriptorSize else data.length

def step (flitSize cacheLineSize : Nat) (s : RxWrites) : RxWritesAct → Sim RxWrites
  | .recv data ddioHeader => do
    let r ← s.worker.processDTAResponse flitSize cacheLineSize data ddioHeader
    return { s with
      worker := r.2
      payload := some r.2.payloadSize
      received := s.received + payloadIn s.worker data }
  | .work => do
    let r ← s.worker.dtaWork cacheLineSize
    return { s with worker := r.2, writes := s.writes ++ r.1.toList }
  | .complete size => do
    let w ← s.worker.handleDMACompletion size
    return { s with worker := w }

def Quiet (cacheLineSize : Nat) (s : RxWrites) : Prop :=
  s.worker.working = false ∨ s.worker.wcBufferReadyForDMA cacheLineSize = false

variable {f c n : Nat} {s t : RxWrites} {a : RxWritesAct}

structure Fresh (s : RxWrites) : Prop where
  working : s.worker.working = true
  descriptor : s.worker.descriptor = none
  mbufAddr : s.worker.mbufAddr = s.mbuf
  payloadSize : s.worker.payloadSize = 0
  receivedSize : s.worker.receivedPayloadSize = 0
  notAll : s.worker.allPayloadReceived = false
  buffer : s.worker.payloadWCBuffer = []
  sent : s.worker.sentDMASize = 0
  writes : s.writes = []
  payload : s.payload = none
  received : s.received = 0

def LinesFor (c received payloadSize n : Nat) : Prop :=
  received < n * c → received = payloadSize ∧ n * c < received + c

structure Busy (c : Nat) (s : RxWrites) : Prop where
  working : s.worker.working = true
  descriptor : s.worker.descriptor.isSome = true
  mbufAddr : s.worker.mbufAddr = s.mbuf
  payload : s.payload = some s.worker.payloadSize
  received : s.worker.receivedPayloadSize = s.received
  buffer : s.worker.payloadWCBuffer.length = s.received
  all_iff : s.worker.allPayloadReceived = true ↔ s.received = s.worker.payloadSize
  sent : s.worker.sentDMASize = min (s.writes.length * c) s.received
  lines : LinesFor c s.received s.worker.payloadSize s.writes.length

structure Freed (c : Nat) (s : RxWrites) : Prop where
  working : s.worker.working = false
  payload : s.payload = some s.received
  enough : s.received ≤ s.writes.length * c
  close : s.writes.length * c < s.received + c

structure Inv (c : Nat) (s : RxWrites) : Prop where
  lines : Lines c s.mbuf s.writes
  phase : s.Fresh ∨ s.Busy c ∨ s.Freed c

theorem start_inv (mbuf : Nat) : (start mbuf).Inv c :=
  ⟨fun k hk => absurd hk (Nat.not_lt_zero k),
    .inl ⟨rfl, rfl, rfl, rfl, rfl, rfl, rfl, rfl, rfl, rfl, rfl⟩⟩

section Worker

open DTARXWorker

variable {w v : DTARXWorker} {data : List UInt8} {ddioHeader : Bool} {r : Nat × DTARXWorker}

/-- The worker after the tests of `checkReady`, which only set flags. -/
structure SameData (w v : DTARXWorker) : Prop where
  working : v.working = w.working
  descriptor : v.descriptor = w.descriptor
  mbufAddr : v.mbufAddr = w.mbufAddr
  payloadSize : v.payloadSize = w.payloadSize
  received : v.receivedPayloadSize = w.receivedPayloadSize
  buffer : v.payloadWCBuffer = w.payloadWCBuffer
  sent : v.sentDMASize = w.sentDMASize

theorem checkReady_sameData : SameData w (w.checkReady c) := by
  rw [checkReady]
  split <;> exact ⟨rfl, rfl, rfl, rfl, rfl, rfl, rfl⟩

theorem checkReady_all (h : w.allPayloadReceived = true → w.receivedPayloadSize = w.payloadSize) :
    (w.checkReady c).allPayloadReceived = true ↔ w.receivedPayloadSize = w.payloadSize := by
  rw [checkReady]
  split
  next heq => exact ⟨fun _ => heq, fun _ => rfl⟩
  next hne => exact ⟨h, fun heq => absurd heq hne⟩

theorem copyPayload_ok {payload : List UInt8} (h : w.copyPayload payload = .ok v) :
    v = { w with payloadWCBuffer := w.payloadWCBuffer ++ payload } := by
  rw [copyPayload] at h
  split at h
  next =>
    cases h
    rfl
  next => nomatch h

theorem firstResponse_ok (h : w.firstResponse f data ddioHeader = .ok r) : r.2 = { w with
      descriptor := some (data.take rxDescriptorSize)
      payloadSize := pktLen (data.take rxDescriptorSize)
      receivedPayloadSize := w.receivedPayloadSize + (data.drop rxDescriptorSize).length
      payloadWCBuffer := w.payloadWCBuffer ++ data.drop rxDescriptorSize } := by
  rw [firstResponse] at h
  split at h
  next => nomatch h
  next =>
    iterate 3 obtain ⟨_, _, h⟩ := bind_eq_ok.mp h
    obtain ⟨v, hcopy, h⟩ := bind_eq_ok.mp h
    obtain ⟨_, _, rfl⟩ := map_eq_ok.mp h
    exact copyPayload_ok hcopy

theorem laterResponse_ok (h : w.laterResponse data = .ok r) :
    w.receivedPayloadSize + data.length ≤ w.payloadSize ∧ r.2 = { w with
        receivedPayloadSize := w.receivedPayloadSize + data.length
        payloadWCBuffer := w.payloadWCBuffer ++ data } := by
  obtain ⟨_, _, h⟩ := bind_eq_ok.mp h
  obtain ⟨_, _, h⟩ := bind_eq_ok.mp h
  obtain ⟨_, hle, h⟩ := bind_eq_ok.mp h
  obtain ⟨v, hcopy, rfl⟩ := map_eq_ok.mp h
  exact ⟨of_decide_eq_true (simAssert_eq_ok.mp hle), copyPayload_ok hcopy⟩

theorem processDTAResponse_ok (h : w.processDTAResponse f c data ddioHeader = .ok r) :
    w.working = true ∧ ∃ x, (if w.descriptor.isNone then w.firstResponse f data ddioHeader
      else w.laterResponse data) = .ok x ∧ r.2 = x.2.checkReady c := by
  obtain ⟨_, hworking, h⟩ := bind_eq_ok.mp h
  refine ⟨simAssert_eq_ok.mp hworking, ?_⟩
  split at h
  next hnone =>
    obtain ⟨x, hx, rfl⟩ := map_eq_ok.mp h
    exact ⟨x, by rw [if_pos hnone, hx], rfl⟩
  next hsome =>
    obtain ⟨x, hx, rfl⟩ := map_eq_ok.mp h
    exact ⟨x, by rw [if_neg hsome, hx], rfl⟩

theorem sent_lt_of_ready (hc : 0 < c) (h : w.wcBufferReadyForDMA c = true) :
    w.sentDMASize < w.payloadWCBuffer.length := by
  rw [wcBufferReadyForDMA, or_eq_true_iff, and_eq_true_iff, decide_eq_true_eq,
    decide_eq_true_eq] at h
  omega

theorem makePacket_length : (w.makePacket c).1.data.length = c := by
  rw [makePacket]
  rw [length_append, length_take, length_drop, length_replicate]
  split <;> omega

end Worker

section Steps

open DTARXWorker

theorem Fresh.recv {data : List UInt8} {ddioHeader : Bool} (h : s.Fresh)
    (hstep : s.step f c (.recv data ddioHeader) = .ok t) : t.Busy c := by
  obtain ⟨r, hr, rfl⟩ := map_eq_ok.mp hstep
  obtain ⟨_, x, hx, hready⟩ := processDTAResponse_ok hr
  have hnone : s.worker.descriptor.isNone = true := by rw [h.descriptor]; rfl
  rw [if_pos hnone] at hx
  have hx := firstResponse_ok hx
  have hsame := checkReady_sameData (c := c) (w := x.2)
  have hpay : payloadIn s.worker data = (data.drop rxDescriptorSize).length := by
    rw [payloadIn, if_pos hnone, length_drop]
  have hrecv : x.2.receivedPayloadSize = s.received + payloadIn s.worker data := by
    rw [hx, hpay, h.receivedSize, h.received]
  have hnotAll : x.2.allPayloadReceived = true → x.2.receivedPayloadSize = x.2.payloadSize := by
    intro hall
    rw [hx] at hall
    rw [h.notAll] at hall
    nomatch hall
  constructor
  · rw [hready, hsame.working, hx, h.working]
  · rw [hready, hsame.descriptor, hx]
    rfl
  · rw [hready, hsame.mbufAddr, hx, h.mbufAddr]
  · rfl
  · rw [hready, hsame.received, hrecv]
  · rw [hready, hsame.buffer, hx, hpay, h.buffer, h.received]
    simp
  · rw [hready, checkReady_all hnotAll, hsame.payloadSize, hrecv]
  · rw [hready, hsame.sent, hx, h.sent, h.writes]
    simp
  · intro hlt
    rw [h.writes] at hlt
    simp at hlt

theorem Busy.recv {data : List UInt8} {ddioHeader : Bool} (h : s.Busy c)
    (hstep : s.step f c (.recv data ddioHeader) = .ok t) : t.Busy c := by
  obtain ⟨r, hr, rfl⟩ := map_eq_ok.mp hstep
  obtain ⟨_, x, hx, hready⟩ := processDTAResponse_ok hr
  have hnone : ¬ s.worker.descriptor.isNone = true := by
    rw [Option.isNone_iff_eq_none]
    intro hnone
    have hsome := h.descriptor
    rw [hnone] at hsome
    nomatch hsome
  rw [if_neg hnone] at hx
  obtain ⟨hle, hx⟩ := laterResponse_ok hx
  have hsame := checkReady_sameData (c := c) (w := x.2)
  have hpay : payloadIn s.worker data = data.length := by rw [payloadIn, if_neg hnone]
  have hrecv : x.2.receivedPayloadSize = s.received + payloadIn s.worker data := by
    rw [hx, hpay, h.received]
  have hsize : x.2.payloadSize = s.worker.payloadSize := by rw [hx]
  rw [h.received] at hle
  have hall : x.2.allPayloadReceived = true → x.2.receivedPayloadSize = x.2.payloadSize := by
    intro hall
    have hold := h.all_iff.mp (by rw [hx] at hall; exact hall)
    omega
  -- a line that is not full was sent only when all payload had been received
  have hlines := h.lines
  rw [LinesFor] at hlines
  constructor
  · rw [hready, hsame.working, hx, h.working]
  · rw [hready, hsame.descriptor, hx, h.descriptor]
  · rw [hready, hsame.mbufAddr, hx, h.mbufAddr]
  · rfl
  · rw [hready, hsame.received, hrecv]
  · rw [hready, hsame.buffer, hx, hpay, length_append, h.buffer]
  · rw [hready, checkReady_all hall, hsame.payloadSize, hrecv]
  · rw [hready, hsame.sent, hx, h.sent]
    dsimp only
    omega
  · intro hlt
    rw [hready, hsame.payloadSize]
    dsimp only at hlt ⊢
    omega

theorem Fresh.work (hc : 0 < c) (h : s.Fresh) (hstep : s.step f c .work = .ok t) : t.Fresh := by
  have hquiet : s.worker.wcBufferReadyForDMA c = false := by
    rw [wcBufferReadyForDMA, h.buffer]
    simp
    omega
  have hdone : s.worker.checkDone = s.worker := by
    rw [checkDone, h.notAll]
    simp
  rw [step, dtaWork, h.working, hquiet, hdone] at hstep
  cases hstep
  exact ⟨h.working, h.descriptor, h.mbufAddr, h.payloadSize, h.receivedSize, h.notAll,
    h.buffer, h.sent,
    by simp [h.writes], h.payload, h.received⟩

theorem Busy.checkDone (h : s.Busy c) (hc : 0 < c) :
    Busy c { s with worker := s.worker.checkDone } ∨
      Freed c { s with worker := s.worker.checkDone } := by
  rw [DTARXWorker.checkDone]
  split
  next => exact .inl h
  next hsent =>
    split
    next hdone =>
      have hall : s.received = s.worker.payloadSize := h.all_iff.mp (and_eq_true_iff.mp hdone).1
      have hlines := h.lines
      rw [LinesFor] at hlines
      rw [h.sent] at hsent
      refine .inr ⟨rfl, by rw [h.payload, hall], ?_, ?_⟩
      · show s.received ≤ s.writes.length * c
        omega
      · show s.writes.length * c < s.received + c
        omega
    next => exact .inl h

theorem Busy.send (hc : 0 < c) (h : s.Busy c) (hready : s.worker.wcBufferReadyForDMA c = true) :
    (s.worker.makePacket c).1.addr = s.mbuf + s.writes.length * c ∧ Busy c { s with
        worker := (s.worker.makePacket c).2
        writes := s.writes ++ [(s.worker.makePacket c).1] } := by
  have hlt := sent_lt_of_ready hc hready
  have hsent := h.sent
  rw [h.buffer] at hlt
  have hfull : s.worker.sentDMASize = s.writes.length * c := by omega
  have hnext : (s.writes ++ [(s.worker.makePacket c).1]).length * c = s.writes.length * c + c := by
    rw [length_append, length_singleton, Nat.add_mul, Nat.one_mul]
  have hrest : ¬ c ≤ s.received - s.worker.sentDMASize → s.received = s.worker.payloadSize := by
    intro hpart
    rw [wcBufferReadyForDMA, h.buffer, decide_eq_false hpart, Bool.false_or,
      and_eq_true_iff] at hready
    exact h.all_iff.mp hready.1
  refine ⟨?_, h.working, h.descriptor, h.mbufAddr, h.payload, h.received, h.buffer,
    h.all_iff, ?_, ?_⟩
  · rw [makePacket, h.mbufAddr, hfull]
  · rw [hnext, makePacket]
    dsimp only
    rw [h.buffer]
    split <;> omega
  · intro hover
    dsimp only at hover ⊢
    exact ⟨hrest (by omega), by omega⟩

theorem Busy.work (hc : 0 < c) (h : s.Busy c) (hl : Lines c s.mbuf s.writes)
    (hstep : s.step f c .work = .ok t) : Lines c t.mbuf t.writes ∧ (t.Busy c ∨ t.Freed c) := by
  rw [step, dtaWork, h.working] at hstep
  cases hready : s.worker.wcBufferReadyForDMA c with
  | false =>
    rw [hready] at hstep
    cases hstep
    simp only [Option.toList_none, append_nil]
    exact ⟨hl, h.checkDone hc⟩
  | true =>
    rw [hready] at hstep
    obtain ⟨r, hr, hstep⟩ := bind_eq_ok.mp hstep
    obtain ⟨_, _, rfl⟩ := map_eq_ok.mp hr
    cases hstep
    obtain ⟨haddr, hbusy⟩ := h.send hc hready
    exact ⟨hl.snoc haddr makePacket_length, hbusy.checkDone hc⟩

theorem complete_ok {size : Nat} (hstep : s.step f c (.complete size) = .ok t) :
    ∃ done : Bool, t = { s with worker := { s.worker with
        dmaTransferredSize := s.worker.dmaTransferredSize + size
        dmaComplete := done } } ∧ s.worker.working = true := by
  obtain ⟨w, hw, rfl⟩ := map_eq_ok.mp hstep
  obtain ⟨_, hworking, hw⟩ := bind_eq_ok.mp hw
  dsimp only at hw
  split at hw
  next =>
    obtain ⟨_, _, rfl⟩ := map_eq_ok.mp hw
    exact ⟨true, rfl, simAssert_eq_ok.mp hworking⟩
  next =>
    cases hw
    exact ⟨s.worker.dmaComplete, rfl, simAssert_eq_ok.mp hworking⟩

theorem Freed.stays (h : s.Freed c) (hstep : s.step f c a = .ok t) :
    Freed c t ∧ t.mbuf = s.mbuf ∧ t.writes = s.writes := by
  cases a with
  | recv data ddioHeader =>
    obtain ⟨r, hr, _⟩ := bind_eq_ok.mp hstep
    have hworking := (processDTAResponse_ok hr).1
    rw [h.working] at hworking
    nomatch hworking
  | work =>
    rw [step, dtaWork, h.working] at hstep
    cases hstep
    show Freed c { s with writes := s.writes ++ [] } ∧ s.mbuf = s.mbuf ∧ s.writes ++ [] = s.writes
    rw [append_nil]
    exact ⟨h, rfl, rfl⟩
  | complete size =>
    obtain ⟨_, _, hworking⟩ := complete_ok hstep
    rw [h.working] at hworking
    nomatch hworking

theorem step_inv (hc : 0 < c) (h : s.Inv c) (hstep : s.step f c a = .ok t) : t.Inv c := by
  obtain ⟨hlines, hfresh | hbusy | hfreed⟩ := h
  · cases a with
    | recv data ddioHeader =>
      have hbusy := hfresh.recv hstep
      obtain ⟨r, _, rfl⟩ := map_eq_ok.mp hstep
      exact ⟨hlines, .inr (.inl hbusy)⟩
    | work =>
      have hnext := hfresh.work hc hstep
      refine ⟨?_, .inl hnext⟩
      rw [hnext.writes]
      exact fun k hk => absurd hk (Nat.not_lt_zero k)
    | complete size =>
      obtain ⟨_, rfl, _⟩ := complete_ok hstep
      exact ⟨hlines, .inl { hfresh with }⟩
  · cases a with
    | recv data ddioHeader =>
      have hnext := hbusy.recv hstep
      obtain ⟨r, _, rfl⟩ := map_eq_ok.mp hstep
      exact ⟨hlines, .inr (.inl hnext)⟩
    | work =>
      obtain ⟨hl, hphase⟩ := hbusy.work hc hlines hstep
      exact ⟨hl, .inr hphase⟩
    | complete size =>
      obtain ⟨_, rfl, _⟩ := complete_ok hstep
      exact ⟨hlines, .inr (.inl { hbusy with })⟩
  · obtain ⟨hnext, hmbuf, hwrites⟩ := hfreed.stays hstep
    exact ⟨by rw [hmbuf, hwrites]; exact hlines, .inr (.inr hnext)⟩

end Steps

theorem lines_eq_iff {p r : Nat} (hlines : LinesFor c r p n) (hshort : n * c ≤ r → r < n * c + c)
    (hall : r = p → r ≤ n * c) : n * c = p ↔ c ∣ p ∧ p ≤ r ∧ r < p + c := by
  rw [LinesFor] at hlines
  constructor
  · intro hp
    have hdvd : c ∣ p := Dvd.intro_left n hp
    exact ⟨hdvd, by omega, by omega⟩
  · rintro ⟨⟨m, rfl⟩, hle, hlt⟩
    rw [mul_comm c m] at *
    have hlow : n < m + 1 := by
      apply Nat.lt_of_mul_lt_mul_right (a := c)
      rw [Nat.add_mul]
      omega
    have hhigh : m < n + 1 := by
      apply Nat.lt_of_mul_lt_mul_right (a := c)
      rw [Nat.add_mul]
      omega
    have hnm : n = m := by omega
    rw [hnm]

/-- Once a worker has its descriptor and nothing to send, its writes are exactly the packet if and
only if the packet consists of full cache lines, and all of them have been received and no further
line. -/
theorem writes_exactly_iff (flitSize cacheLineSize mbuf : Nat) (hc : 0 < cacheLineSize)
    (hr : Reach (step flitSize cacheLineSize) (fun _ _ => True) (start mbuf) s)
    (hquiet : s.Quiet cacheLineSize) (size : Nat) (hsize : s.payload = some size) :
    WritesExactly s.writes s.mbuf size ↔
      cacheLineSize ∣ size ∧ size ≤ s.received ∧ s.received < size + cacheLineSize := by
  have hinv : s.Inv cacheLineSize :=
    hr.invariant (start_inv mbuf) fun h _ hstep => step_inv hc h hstep
  rw [hinv.lines.writesExactly_iff]
  obtain ⟨_, hfresh | hbusy | hfreed⟩ := hinv
  · rw [hfresh.payload] at hsize
    nomatch hsize
  · rw [hbusy.payload] at hsize
    cases hsize
    have hready : s.worker.wcBufferReadyForDMA cacheLineSize = false := by
      rcases hquiet with hfree | hready
      · rw [hbusy.working] at hfree
        nomatch hfree
      · exact hready
    rw [DTARXWorker.wcBufferReadyForDMA, hbusy.buffer, hbusy.sent, or_eq_false_iff,
      decide_eq_false_iff_not] at hready
    obtain ⟨hshort, hrest⟩ := hready
    apply lines_eq_iff hbusy.lines (by omega)
    intro heq
    rw [hbusy.all_iff.mpr heq, Bool.true_and, decide_eq_false_iff_not] at hrest
    omega
  · rw [hfreed.payload] at hsize
    cases hsize
    have henough := hfreed.enough
    have hclose := hfreed.close
    exact lines_eq_iff (fun _ => ⟨rfl, hclose⟩) (by omega) (fun _ => henough)

/-- A descriptor for a packet of less than 256 bytes. -/
def descriptorOf (length : UInt8) : List UInt8 := List.replicate 12 0 ++ [length, 0, 0, 0]

theorem writes_exactly_iff_one_line :
    ∃ s, Reach (step 64 64) (fun _ _ => True) (start 4096) s ∧ s.payload = some 64 ∧
      WritesExactly s.writes s.mbuf 64 := by
  obtain ⟨s, hr, hpayload, hreceived, hquiet⟩ :
      ∃ s, Reach (step 64 64) (fun _ _ => True) (start 4096) s ∧ s.payload = some 64 ∧
      s.received = 64 ∧ s.worker.wcBufferReadyForDMA 64 = false :=
    Reach.exists_of_run [.recv (descriptorOf 64 ++ List.replicate 48 1) true,
      .recv (List.replicate 16 2) false, .work] (by decide +kernel)
  refine ⟨s, hr, hpayload, ?_⟩
  exact (writes_exactly_iff 64 64 4096 (by decide) hr (.inr hquiet) 64 hpayload).mpr
    ⟨Nat.dvd_refl 64, by omega, by omega⟩

/-- A packet of 112 bytes, which fills two flits: the byte behind it is written as well. -/
theorem byte_behind_packet_written :
    ∃ s, Reach (step 64 64) (fun _ _ => True) (start 4096) s ∧ s.Quiet 64 ∧ s.payload = some 112 ∧
      s.received = 112 ∧ hits s.writes (4096 + 112) = 1 := by
  obtain ⟨s, hr, hquiet, hpayload, hreceived, hhit⟩ :
      ∃ s, Reach (step 64 64) (fun _ _ => True) (start 4096) s ∧
      s.worker.wcBufferReadyForDMA 64 = false ∧ s.payload = some 112 ∧ s.received = 112 ∧
      hits s.writes (4096 + 112) = 1 :=
    Reach.exists_of_run [.recv (descriptorOf 112 ++ List.replicate 48 1) true,
      .recv (List.replicate 64 2) false, .work, .work] (by decide +kernel)
  exact ⟨s, hr, .inr hquiet, hpayload, hreceived, hhit⟩

end RxWrites

end Gem5.DTA
