import Gem5.DTA.RxSide

/-!
# What the receive side can do

For each function of the receive side the changes it can make to the state. Later proofs
use these lemmas and do not unfold the functions.
-/

namespace Gem5.DTA

open List

open IGbE

namespace RxSide

section Frames

variable {s t : RxSide} {cacheLineSize i : Nat}

def requestSide (s : RxSide) :=
  (s.cxlReqQueue, s.waitingOnRetry, s.dtaRequestTracker, s.nextReq, s.noPacketJobs)

variable {c : DTARXContext}

theorem context_eq : s.context i = .ok c ↔ s.contexts[i]? = some c := by
  unfold context
  cases s.contexts[i]? <;> simp

variable {pkt : JobPacket}

theorem recvTimingReq_cases {data : PacketData} {taken : Bool}
    (h : s.recvTimingReq data pkt = .ok (taken, t)) :
    t = s ∨ t = { s with rxJobSubmissionQueue := s.rxJobSubmissionQueue ++ [data.copy pkt] } := by
  unfold recvTimingReq at h
  split at h
  · exact .inl (Prod.mk.inj (Except.ok.inj h)).2.symm
  · obtain ⟨stage, _, h⟩ := bind_eq_ok.mp h
    split at h
    · exact .inl (Prod.mk.inj (Except.ok.inj h)).2.symm
    · exact .inr (Prod.mk.inj (Except.ok.inj h)).2.symm

theorem continueContext_requestSide
    (h : s.continueContext i pkt c = .ok t) : t.requestSide = s.requestSide := by
  obtain ⟨c', _, h⟩ := bind_eq_ok.mp h
  split at h
  · cases h
    rfl
  · cases h
    rfl

theorem openContext_requestSide
    (h : s.openContext cacheLineSize i pkt c = .ok t) : t.requestSide = s.requestSide := by
  obtain ⟨c', _, rfl⟩ := map_eq_ok.mp h
  rfl

theorem parse_cases {success : Bool}
    (h : s.parseJobRequestAndSetContext cacheLineSize pkt = .ok (success, t)) :
    (success = false ∧ t = s) ∨ ∃ i c, getParsingTargetRXContextID s.contexts = .ok (some i) ∧
      success = true ∧ s.contexts[i]? = some c ∧
      ((c.valid = true ∧ s.continueContext i pkt c = .ok t) ∨
        (c.valid = false ∧ s.openContext cacheLineSize i pkt c = .ok t)) := by
  obtain ⟨target, htarget, h⟩ := bind_eq_ok.mp h
  cases target with
  | none =>
    exact .inl ⟨(Prod.mk.inj (Except.ok.inj h)).1.symm, (Prod.mk.inj (Except.ok.inj h)).2.symm⟩
  | some i =>
    obtain ⟨c, hc, h⟩ := bind_eq_ok.mp h
    obtain ⟨u, hu, h⟩ := bind_eq_ok.mp h
    cases h
    refine .inr ⟨i, c, htarget, rfl, context_eq.mp hc, ?_⟩
    unfold parseInto at hu
    split at hu
    · rename_i hvalid
      exact .inl ⟨hvalid, hu⟩
    · rename_i hvalid
      exact .inr ⟨by simpa using hvalid, hu⟩

theorem checkSubmissionQueue_cases {canScheduleTXJob found : Bool}
    (h : s.checkSubmissionQueue cacheLineSize canScheduleTXJob found = .ok t) :
    (∃ turn, t = { s with checkRXJobQueue := turn }) ∨
      ∃ pkt rest u, s.rxJobSubmissionQueue = pkt :: rest ∧
        parseJobRequestAndSetContext cacheLineSize pkt { s with checkRXJobQueue := false } =
          .ok (true, u) ∧ t = { u with rxJobSubmissionQueue := rest } := by
  obtain ⟨canRX, _, h⟩ := bind_eq_ok.mp h
  split at h
  · unfold scheduleRXJob at h
    split at h
    · cases h
    · rename_i pkt rest hqueue
      obtain ⟨⟨success, u⟩, hu, h⟩ := bind_eq_ok.mp h
      cases success with
      | true => exact .inr ⟨pkt, rest, u, hqueue, hu, eq_of_ok h rfl⟩
      | false =>
        cases h
        rcases parse_cases hu with ⟨_, rfl⟩ | ⟨_, _, _, hfalse, _⟩
        · exact .inl ⟨false, rfl⟩
        · cases hfalse
  · split at h
    · exact .inl ⟨true, eq_of_ok h rfl⟩
    · exact .inl ⟨s.checkRXJobQueue, eq_of_ok h rfl⟩

theorem checkSubmissionQueue_requestSide {canScheduleTXJob found : Bool}
    (h : s.checkSubmissionQueue cacheLineSize canScheduleTXJob found = .ok t) :
    t.requestSide = s.requestSide := by
  rcases checkSubmissionQueue_cases h with ⟨turn, rfl⟩ | ⟨pkt, rest, u, _, hu, rfl⟩
  · rfl
  · rcases parse_cases hu with ⟨_, rfl⟩ | ⟨i, c, _, _, _, ⟨_, hu⟩ | ⟨_, hu⟩⟩
    · rfl
    · have hsame := continueContext_requestSide hu
      exact hsame
    · have hsame := openContext_requestSide hu
      exact hsame

theorem findDTARXWorker_cases {pkt : CxlPacket} {found : Option Nat}
    (h : s.findDTARXWorker pkt i = .ok (found, t)) : ∃ c, s.contexts[i]? = some c ∧
      (t = s ∧ found = none ∨
        (∃ j w, found = some j ∧ pkt.ddioHeader = true ∧ s.workers[j]? = some w ∧
          w.worker.isFree = true ∧ t = s.setContext i { c with lastDTARXWorker := j }) ∨
        ∃ w, found = some c.lastDTARXWorker ∧ pkt.ddioHeader = false ∧ t = s ∧
          s.workers[c.lastDTARXWorker]? = some w ∧ w.worker.isFree = false) := by
  obtain ⟨c, hc, h⟩ := bind_eq_ok.mp h
  refine ⟨c, context_eq.mp hc, ?_⟩
  split at h
  · rename_i hheader
    split at h
    · cases h
      exact .inl ⟨rfl, rfl⟩
    · rename_i j hj
      cases h
      obtain ⟨hlt, hfree, _⟩ := List.findIdx?_eq_some_iff_getElem.mp hj
      exact .inr (.inl ⟨j, s.workers[j], rfl, hheader, List.getElem?_eq_getElem hlt, hfree, rfl⟩)
  · rename_i hheader
    split at h
    · cases h
    · rename_i w hw
      split at h
      · cases h
      · rename_i hbusy
        cases h
        exact .inr (.inr ⟨w, rfl, by simpa using hheader, rfl, hw, by simpa using hbusy⟩)

variable {j : Nat}

theorem processDTAResponse_cases {pkt : CxlPacket} {w : RXWorker}
    (h : s.processDTAResponse cacheLineSize j pkt w = .ok t) :
    ∃ extra worker, w.worker.processDTAResponse 64 cacheLineSize pkt.data pkt.ddioHeader =
        .ok (extra, worker) ∧ ((w.worker.descriptor.isNone = false ∧
          t = { s with workers := s.workers.set j { w with worker := worker } }) ∨
        ∃ k c, w.worker.descriptor.isNone = true ∧ w.rxContextID = some k ∧
          s.contexts[k]? = some c ∧
          t = setContext k (c.setDescriptor w.worker.mbufAddr extra worker.descriptor)
            { s with workers := s.workers.set j { w with worker := worker } }) := by
  obtain ⟨⟨extra, worker⟩, hw, h⟩ := bind_eq_ok.mp h
  refine ⟨extra, worker, hw, ?_⟩
  dsimp only at h
  split at h
  · rename_i hnone
    obtain ⟨k, hk, h⟩ := bind_eq_ok.mp h
    obtain ⟨c, hc, h⟩ := bind_eq_ok.mp h
    exact .inr ⟨k, c, hnone, simSome_eq_ok.mp hk, context_eq.mp hc, eq_of_ok h rfl⟩
  · rename_i hsome
    exact .inl ⟨Bool.not_eq_true _ ▸ hsome, eq_of_ok h rfl⟩

theorem dtaWork_cases (h : s.dtaWork cacheLineSize j = .ok t) :
    ∃ workers queue, t = { s with workers := workers, ioCacheRequestQueue := queue } := by
  obtain ⟨w, _, h⟩ := bind_eq_ok.mp h
  obtain ⟨⟨sent, worker⟩, _, h⟩ := bind_eq_ok.mp h
  cases sent with
  | none | some line => exact ⟨_, _, eq_of_ok h rfl⟩

theorem dtaWorkAll_cases {n : Nat} : ∀ {t}, s.dtaWorkAll cacheLineSize n = .ok t →
    ∃ workers queue, t = { s with workers := workers, ioCacheRequestQueue := queue } := by
  induction n with
  | zero =>
    intro t h
    exact ⟨_, _, eq_of_ok h rfl⟩
  | succ n ih =>
    intro t h
    obtain ⟨u, hu, h⟩ := bind_eq_ok.mp h
    obtain ⟨workers, queue, rfl⟩ := ih hu
    obtain ⟨workers', queue', rfl⟩ := dtaWork_cases h
    exact ⟨_, _, rfl⟩

theorem handleDMACompletion_cases {j size : Nat} (h : s.handleDMACompletion j size = .ok t) :
    ∃ workers, t = { s with workers := workers } ∨ ∃ k c written, s.contexts[k]? = some c ∧
      (∀ addr, (written addr).isSome = (c.rxCompleteMap addr).isSome) ∧
      t = setContext k { c with rxCompleteMap := written } { s with workers := workers } := by
  obtain ⟨w, _, h⟩ := bind_eq_ok.mp h
  obtain ⟨worker, _, h⟩ := bind_eq_ok.mp h
  refine ⟨s.workers.set j { w with worker := worker }, ?_⟩
  split at h
  · obtain ⟨k, _, h⟩ := bind_eq_ok.mp h
    obtain ⟨c, hc, h⟩ := bind_eq_ok.mp h
    obtain ⟨_, hknown, h⟩ := bind_eq_ok.mp h
    refine .inr ⟨k, c, _, context_eq.mp hc, ?_, eq_of_ok h rfl⟩
    intro addr
    by_cases haddr : addr = w.worker.mbufAddr
    · rw [haddr, Function.update_self, simAssert_eq_ok.mp hknown]
      rfl
    · rw [Function.update_of_ne haddr]
  · exact .inl (eq_of_ok h rfl)

theorem ioCacheDone_cases {k : Nat} (h : s.ioCacheDone k = .ok t) :
    ∃ workers queue, t = { s with workers := workers, ioCacheRequestQueue := queue } ∨
      ∃ i c written, s.contexts[i]? = some c ∧
        (∀ addr, (written addr).isSome = (c.rxCompleteMap addr).isSome) ∧
        t = setContext i { c with rxCompleteMap := written }
          { s with workers := workers, ioCacheRequestQueue := queue } := by
  unfold ioCacheDone at h
  split at h
  · exact ⟨s.workers, s.ioCacheRequestQueue, .inl (eq_of_ok h rfl)⟩
  · split at h
    · obtain ⟨workers, rfl | ⟨i, c, written, hc, hkeys, rfl⟩⟩ := handleDMACompletion_cases h
      · exact ⟨workers, _, .inl rfl⟩
      · exact ⟨workers, _, .inr ⟨i, c, written, hc, hkeys, rfl⟩⟩
    · exact ⟨s.workers, _, .inl (eq_of_ok h rfl)⟩

end Frames

section Parsing

variable {c d : DTARXContext}

theorem storeMbufAddrs_cases : ∀ {addrs : List Nat} {c : DTARXContext},
    c.storeMbufAddrs addrs = .ok d → ∃ mbufAddr written, d = { c with
      mbufAddr := mbufAddr
      rxCompleteMap := written
      nMbufAddrReceived := c.nMbufAddrReceived + addrs.length } := by
  intro addrs
  induction addrs with
  | nil =>
    intro c h
    exact ⟨_, _, eq_of_ok h rfl⟩
  | cons addr rest ih =>
    intro c h
    obtain ⟨u, hu, h⟩ := bind_eq_ok.mp h
    obtain ⟨mbufAddr, written, rfl⟩ := ih h
    unfold DTARXContext.storeMbufAddr at hu
    split at hu
    · cases hu
      refine ⟨mbufAddr, written, ?_⟩
      simp only [length_cons, add_assoc, add_comm 1]
    · cases hu

theorem parseRest_cases {pkt : JobPacket} (h : c.parseRest pkt = .ok d) :
    ∃ mbufAddr written n, d = { c with
      mbufAddr := mbufAddr, rxCompleteMap := written, nMbufAddrReceived := n } ∧
      c.nMbufAddrReceived ≤ n ∧ n ≤ c.nbPkts := by
  obtain ⟨u, hu, h⟩ := bind_eq_ok.mp h
  obtain ⟨mbufAddr, written, rfl⟩ := storeMbufAddrs_cases hu
  obtain ⟨_, hle, rfl⟩ := map_eq_ok.mp h
  exact ⟨mbufAddr, written, _, rfl, Nat.le_add_right _ _, by simpa using simAssert_eq_ok.mp hle⟩

end Parsing

section Requests

variable {s t : RxSide} {i : Nat}

theorem sendFront_cases {accepts : Bool} {sent : Option CxlPacket}
    (h : s.sendFront accepts = .ok (sent, t)) :
    (sent = none ∧ ∃ waits, t = { s with waitingOnRetry := waits }) ∨
      (∃ rest, s.cxlReqQueue = .write :: rest ∧ sent = none ∧ t = { s with cxlReqQueue := rest }) ∨
      ∃ pkt rest, s.cxlReqQueue = .read pkt :: rest ∧ sent = some pkt ∧ accepts = true ∧
        pkt.req ∉ s.dtaRequestTracker ∧
        t = { s with
          cxlReqQueue := rest, dtaRequestTracker := s.dtaRequestTracker ++ [pkt.req] } := by
  unfold sendFront at h
  split at h
  · cases h
    exact .inl ⟨rfl, s.waitingOnRetry, rfl⟩
  · split at h
    · cases h
      exact .inl ⟨rfl, s.waitingOnRetry, rfl⟩
    · rename_i r rest hqueue
      split at h
      · rename_i haccepts
        split at h
        · rename_i pkt
          obtain ⟨u, hu, h⟩ := bind_eq_ok.mp h
          obtain ⟨_, hnew, rfl⟩ := map_eq_ok.mp hu
          cases h
          exact .inr (.inr ⟨pkt, rest, hqueue, rfl, haccepts,
            by simpa using simAssert_eq_ok.mp hnew, rfl⟩)
        · cases h
          exact .inr (.inl ⟨rest, hqueue, rfl, rfl⟩)
      · cases h
        exact .inl ⟨rfl, true, rfl⟩

theorem checkThreshold_true {c : DTARXContext} (h : c.checkThreshold = .ok true) :
    c.valid = true ∧ c.nExtraCxlReqReceived ≤ c.nExtraCxlReqNeeded ∧ c.nRecv ≤ c.nMbufAddrReceived ∧
      c.numFreeRequestInNIC < (c.nMbufAddrReceived - c.nRecv) +
        (c.nExtraCxlReqNeeded - c.nExtraCxlReqReceived) := by
  unfold DTARXContext.checkThreshold at h
  split at h
  · rename_i hvalid
    obtain ⟨_, hextra, h⟩ := bind_eq_ok.mp h
    obtain ⟨_, hrecv, h⟩ := bind_eq_ok.mp h
    exact ⟨hvalid, by simpa using simAssert_eq_ok.mp hextra,
      by simpa using simAssert_eq_ok.mp hrecv,
      by simpa using Except.ok.inj h⟩
  · cases h

theorem requestMore_cases (h : s.requestMore = .ok t) :
    (∃ n, t = { s with nextReq := n } ∧ s.nextReq ≤ n) ∨
      ∃ i rest c, s.rxContextIDQueue = i :: rest ∧ s.contexts[i]? = some c ∧
        c.checkThreshold = .ok true ∧
        t = { s.setContext i { c with numFreeRequestInNIC := c.numFreeRequestInNIC + 1 } with
          cxlReqQueue := s.cxlReqQueue ++ [.read (s.createDTARequest c)]
          nextReq := s.nextReq + 1 } := by
  unfold requestMore at h
  split at h
  · exact .inl ⟨s.nextReq, eq_of_ok h rfl, le_rfl⟩
  · rename_i i rest hqueue
    obtain ⟨c, hc, h⟩ := bind_eq_ok.mp h
    obtain ⟨more, hmore, h⟩ := bind_eq_ok.mp h
    cases more with
    | false => exact .inl ⟨s.nextReq, eq_of_ok h rfl, le_rfl⟩
    | true =>
      simp only [if_true] at h
      split at h
      · obtain ⟨_, _, h⟩ := bind_eq_ok.mp h
        exact .inr ⟨i, rest, c, hqueue, context_eq.mp hc, hmore, eq_of_ok h rfl⟩
      · exact .inl ⟨s.nextReq + 1, eq_of_ok h rfl, Nat.le_succ _⟩

def answered (c : DTARXContext) : DTARXContext :=
  { c with numFreeRequestInNIC := DTARXContext.decrement c.numFreeRequestInNIC }

theorem recvTimingRespfromNIC_cases {pkt : CxlPacket} (h : s.recvTimingRespfromNIC pkt = .ok t) :
    (t = s.eraseRequest pkt ∧ ∀ i rest c, s.rxContextIDQueue = i :: rest →
        s.contexts[i]? = some c → c.valid = true → c.rxJobID ≠ pkt.jobID) ∨
      ∃ i rest c, s.rxContextIDQueue = i :: rest ∧ s.contexts[i]? = some c ∧ c.valid = true ∧
        c.rxJobID = pkt.jobID ∧ pkt.req ∈ s.dtaRequestTracker ∧ ((pkt.data.any (· != 0) = false ∧
            t = ((s.eraseRequest pkt).setContext i (answered c)).noPacket i (answered c)) ∨
          (pkt.data.any (· != 0) = true ∧
            t = ((s.eraseRequest pkt).setContext i (answered c)).takeResponse i pkt
              (answered c))) := by
  unfold recvTimingRespfromNIC at h
  split at h
  · rename_i hqueue
    refine .inl ⟨eq_of_ok h rfl, ?_⟩
    intro i rest c hcons
    rw [hqueue] at hcons
    cases hcons
  · rename_i i rest hqueue
    obtain ⟨c, hc, h⟩ := bind_eq_ok.mp h
    have hget := context_eq.mp hc
    split at h
    · rename_i hfront
      simp only [Bool.and_eq_true, beq_iff_eq] at hfront
      unfold recvForFront at h
      split at h
      · rename_i htracked
        refine .inr ⟨i, rest, c, hqueue, hget, hfront.1, hfront.2, by simpa using htracked, ?_⟩
        split at h
        · rename_i hzero
          refine .inl ⟨?_, eq_of_ok h rfl⟩
          simpa using hzero
        · rename_i hzero
          refine .inr ⟨?_, eq_of_ok h rfl⟩
          simpa using hzero
      · cases h
    · rename_i hother
      refine .inl ⟨eq_of_ok h rfl, ?_⟩
      intro i' rest' c' hcons hc' hvalid hjob
      obtain ⟨rfl, rfl⟩ := List.cons.inj (hqueue.symm.trans hcons)
      obtain rfl := Option.mem_unique hget hc'
      exact hother (by simp [hvalid, hjob])

end Requests

section Workers

variable {s t : RxSide} {cacheLineSize i : Nat}

def announcedBy (data : List UInt8) : Nat :=
  DTARXWorker.extraCxlReq 64 (pktLen (data.take rxDescriptorSize)) (data.length - rxDescriptorSize)

theorem firstResponse_announced {w w' : DTARXWorker} {data : List UInt8} {header : Bool}
    {extra : Nat} (hnone : w.descriptor.isNone = true)
    (h : w.processDTAResponse 64 cacheLineSize data header = .ok (extra, w')) :
    header = true ∧ (w.receivedPayloadSize = 0 → extra = announcedBy data) := by
  obtain ⟨_, _, h⟩ := bind_eq_ok.mp h
  rw [if_pos hnone] at h
  obtain ⟨⟨extra', v⟩, hfirst, h⟩ := bind_eq_ok.mp h
  obtain ⟨rfl, _⟩ := Prod.mk.inj (Except.ok.inj h)
  unfold DTARXWorker.firstResponse at hfirst
  split at hfirst
  · cases hfirst
  · obtain ⟨_, hheader, hfirst⟩ := bind_eq_ok.mp hfirst
    iterate 4 obtain ⟨_, _, hfirst⟩ := bind_eq_ok.mp hfirst
    obtain ⟨rfl, _⟩ := Prod.mk.inj (Except.ok.inj hfirst)
    refine ⟨simAssert_eq_ok.mp hheader, fun hzero => ?_⟩
    simp only [announcedBy, hzero, zero_add, length_drop]

theorem allocateWorker_cases {nRecv : Nat} {w v : RXWorker}
    (h : s.allocateWorker nRecv i w = .ok v) :
    (w.worker.isFree = true ∧ v.rxContextID = some i ∧ v.worker.descriptor.isNone = true ∧
        v.worker.receivedPayloadSize = 0) ∨ (w.worker.isFree = false ∧ v = w) := by
  unfold allocateWorker at h
  split at h
  · rename_i hfree
    obtain ⟨c, _, h⟩ := bind_eq_ok.mp h
    split at h
    · cases h
    · obtain ⟨_, _, h⟩ := bind_eq_ok.mp h
      obtain ⟨worker, hworker, h⟩ := bind_eq_ok.mp h
      obtain ⟨_, _, rfl⟩ := map_eq_ok.mp hworker
      cases h
      exact .inl ⟨hfree, rfl, rfl, rfl⟩
  · rename_i hbusy
    exact .inr ⟨by simpa using hbusy, eq_of_ok h rfl⟩

theorem allocateWorkerFromQueue_cases (h : s.allocateWorkerFromQueue cacheLineSize i = .ok t) :
    t = s ∨ ∃ pkt nRecv rest c workers, s.workerWaitingQueue = (pkt, nRecv) :: rest ∧
      s.contexts[i]? = some c ∧ ((pkt.ddioHeader = true ∧ ∃ last map,
          t = { s with
            workers := workers
            workerWaitingQueue := rest
            contexts := s.contexts.set i { c with
              lastDTARXWorker := last
              nExtraCxlReqNeeded := c.nExtraCxlReqNeeded + announcedBy pkt.data
              rxDescMap := map } }) ∨
        (pkt.ddioHeader = false ∧
          t = { s with workers := workers, workerWaitingQueue := rest })) := by
  unfold allocateWorkerFromQueue at h
  split at h
  · exact .inl (eq_of_ok h rfl)
  · rename_i pkt nRecv rest hqueue
    obtain ⟨⟨found, u⟩, hfind, hfound⟩ := bind_eq_ok.mp h
    obtain ⟨c, hc,
        ⟨rfl, rfl⟩ | ⟨j, w, rfl, hheader, hw, hfree, rfl⟩ | ⟨w, rfl, hheader, rfl, hw, hbusy⟩⟩ :=
      findDTARXWorker_cases hfind
    · exact .inl (eq_of_ok hfound rfl)
    · obtain ⟨w', hw', hworker⟩ := bind_eq_ok.mp hfound
      have hsame : w' = w := Option.some.inj ((simSome_eq_ok.mp hw').symm.trans hw)
      subst hsame
      obtain ⟨v, hv, hprocess⟩ := bind_eq_ok.mp hworker
      obtain ⟨r, hr, rfl⟩ := map_eq_ok.mp hprocess
      obtain ⟨_, hctx, hnone, hzero⟩ | ⟨hbusy, _⟩ := allocateWorker_cases hv
      · obtain ⟨extra, worker, hresponse, ⟨hsome, _⟩ | ⟨k, d, _, hk, hd, rfl⟩⟩ :=
          processDTAResponse_cases hr
        · rw [hnone] at hsome
          cases hsome
        · obtain rfl : i = k := Option.mem_unique hctx hk
          obtain rfl := (firstResponse_announced hnone hresponse).2 hzero
          obtain ⟨hlt, _⟩ := List.getElem?_eq_some_iff.mp hc
          have hd' : d = { c with lastDTARXWorker := j } := by
            simpa [setContext, hlt] using hd.symm
          subst hd'
          refine .inr ⟨pkt, nRecv, rest, c, s.workers.set j { v with worker := worker }, hqueue, hc,
            .inl ⟨hheader, j, Function.update c.rxDescMap v.worker.mbufAddr worker.descriptor, ?_⟩⟩
          simp only [setContext, set_set, DTARXContext.setDescriptor]
      · rw [hfree] at hbusy
        cases hbusy
    · obtain ⟨w', hw', hworker⟩ := bind_eq_ok.mp hfound
      obtain ⟨v, hv, hprocess⟩ := bind_eq_ok.mp hworker
      obtain ⟨r, hr, rfl⟩ := map_eq_ok.mp hprocess
      obtain ⟨extra, worker, hresponse, ⟨_, rfl⟩ | ⟨k, d, hnone, _⟩⟩ := processDTAResponse_cases hr
      · exact .inr ⟨pkt, nRecv, rest, c, _, hqueue, hc, .inr ⟨hheader, rfl⟩⟩
      · have hmark := (firstResponse_announced hnone hresponse).1
        rw [hheader] at hmark
        cases hmark

end Workers

section Completion

variable {s t : RxSide} {cacheLineSize i : Nat}

theorem enterCompletionStage_cases {c d : DTARXContext} (h : c.enterCompletionStage = .ok d) :
    ∃ stage, d = { c with completionStage := stage } := by
  unfold DTARXContext.enterCompletionStage at h
  split at h
  · exact ⟨c.completionStage, eq_of_ok h rfl⟩
  · obtain ⟨_, _, h⟩ := bind_eq_ok.mp h
    split at h
    · obtain ⟨done, _, h⟩ := bind_eq_ok.mp h
      exact ⟨done, eq_of_ok h rfl⟩
    · exact ⟨c.completionStage, eq_of_ok h rfl⟩

def account (c : DTARXContext) :=
  (c.rxJobID, c.valid, c.nbPkts, c.nRecv, c.numFreeRequestInNIC, c.nMbufAddrReceived,
    c.nExtraCxlReqNeeded, c.nExtraCxlReqReceived)

theorem writeCompletion_cases {c : DTARXContext} (h : s.writeCompletion cacheLineSize i c = .ok t) :
    ∃ queue, (∃ d, t = { s with contexts := s.contexts.set i d, ioCacheRequestQueue := queue } ∧
        account d = account c) ∨
      t = { s with
        contexts := s.contexts.set i DTARXContext.clear
        ioCacheRequestQueue := queue
        rxContextIDQueue := s.rxContextIDQueue.tail } := by
  unfold writeCompletion at h
  split at h
  · obtain ⟨descs, _, h⟩ := bind_eq_ok.mp h
    obtain ⟨_, _, rfl⟩ := map_eq_ok.mp h
    exact ⟨_, .inl ⟨_, rfl, rfl⟩⟩
  · obtain ⟨_, _, h⟩ := bind_eq_ok.mp h
    obtain ⟨_, _, rfl⟩ := map_eq_ok.mp h
    exact ⟨_, .inr rfl⟩

theorem checkRXJobCompletion_cases (h : s.checkRXJobCompletion cacheLineSize i = .ok t) :
    ∃ c queue, s.contexts[i]? = some c ∧
      ((∃ d, t = { s with contexts := s.contexts.set i d, ioCacheRequestQueue := queue } ∧
          account d = account c) ∨
        (c.valid = true ∧ t = { s with
          contexts := s.contexts.set i DTARXContext.clear
          ioCacheRequestQueue := queue
          rxContextIDQueue := s.rxContextIDQueue.tail })) := by
  obtain ⟨c, hc, h⟩ := bind_eq_ok.mp h
  have hget := context_eq.mp hc
  split at h
  · rename_i hvalid
    obtain ⟨d, hd, h⟩ := bind_eq_ok.mp h
    obtain ⟨stage, rfl⟩ := enterCompletionStage_cases hd
    split at h
    · obtain ⟨queue, ⟨d, rfl, hd⟩ | rfl⟩ := writeCompletion_cases h
      · refine ⟨c, queue, hget, .inl ⟨d, ?_, hd⟩⟩
        simp only [setContext, set_set]
      · refine ⟨c, queue, hget, .inr ⟨hvalid, ?_⟩⟩
        simp only [setContext, set_set]
    · cases h
      exact ⟨c, s.ioCacheRequestQueue, hget, .inl ⟨_, rfl, rfl⟩⟩
  · cases h
    refine ⟨c, s.ioCacheRequestQueue, hget, .inl ⟨c, ?_, rfl⟩⟩
    obtain ⟨hlt, rfl⟩ := List.getElem?_eq_some_iff.mp hget
    rw [set_getElem_self]

end Completion

section StateMachine

variable {s t : RxSide} {cacheLineSize : Nat}

theorem dtaRXStateMachine_cases (h : s.dtaRXStateMachine cacheLineSize = .ok t) :
    t = s ∨ ∃ i rest u workers queue, s.rxContextIDQueue = i :: rest ∧
      s.checkRXJobCompletion cacheLineSize i = .ok u ∧ allocateWorkerFromQueue cacheLineSize i
        { u with workers := workers, ioCacheRequestQueue := queue } = .ok t := by
  unfold dtaRXStateMachine at h
  split at h
  · exact .inl (eq_of_ok h rfl)
  · rename_i i rest hqueue
    obtain ⟨u, hu, h⟩ := bind_eq_ok.mp h
    obtain ⟨v, hv, h⟩ := bind_eq_ok.mp h
    obtain ⟨workers, queue, rfl⟩ := dtaWorkAll_cases hv
    exact .inr ⟨i, rest, u, workers, queue, hqueue, hu, h⟩

theorem allocateWorkerFromQueue_requestSide {i : Nat}
    (h : s.allocateWorkerFromQueue cacheLineSize i = .ok t) : t.requestSide = s.requestSide := by
  rcases allocateWorkerFromQueue_cases h with
    rfl | ⟨_, _, _, _, _, _, _, ⟨_, _, _, rfl⟩ | ⟨_, rfl⟩⟩ <;> rfl

theorem checkRXJobCompletion_requestSide {i : Nat}
    (h : s.checkRXJobCompletion cacheLineSize i = .ok t) : t.requestSide = s.requestSide := by
  rcases checkRXJobCompletion_cases h with ⟨_, _, _, ⟨_, rfl, _⟩ | ⟨_, rfl⟩⟩ <;> rfl

theorem dtaRXStateMachine_requestSide (h : s.dtaRXStateMachine cacheLineSize = .ok t) :
    t.requestSide = s.requestSide := by
  rcases dtaRXStateMachine_cases h with rfl | ⟨i, rest, u, workers, queue, _, hu, hrest⟩
  · rfl
  · have hfirst := checkRXJobCompletion_requestSide hu
    have hlast := allocateWorkerFromQueue_requestSide hrest
    exact hlast.trans hfirst

theorem ioCacheDone_requestSide {k : Nat} (h : s.ioCacheDone k = .ok t) :
    t.requestSide = s.requestSide := by
  rcases ioCacheDone_cases h with ⟨_, _, rfl | ⟨_, _, _, _, _, rfl⟩⟩ <;> rfl

end StateMachine

end RxSide

end Gem5.DTA
