import Gem5.DTA.RxSteps
import Gem5.M2func.RxStream

/-!
# The answer "no packet"

The device answers a request with zeros when it has no packet for the job. The
accelerator knows this answer by its contents, so a flit of a packet that happens to be
zero looks the same. `RxLink` is the device and the accelerator with the responses that
are on their way between them: those of `hist.sent` from `delivered` on.
-/

namespace Gem5.DTA

open List hiding count

open IGbE Cells RxM2func

structure RxLink where
  nic : RxM2funcContext
  dta : RxSide
  delivered : Nat

inductive RxLinkAct where
  | process (env : RxEnv) (packet : EthPacket)
  | deliver (packet : EthPacket)
  | nicTick (env : RxEnv)
  | job (data : PacketData) (pkt : JobPacket)
  | checkSubmissionQueue (canScheduleTXJob found : Bool)
  | transmit
  | sendRequestToNIC (accepts : Bool)
  | recvReqRetry (accepts : Bool)
  | response
  | dtaRXStateMachine
  | ioCacheDone (k : Nat)

/-- Flits of 64 bytes, as the accelerator has them. -/
def linkConfig (rxContextFifoSize numFreeCXLReqMax : Nat) : M2funcConfig :=
  ⟨64, rxContextFifoSize, numFreeCXLReqMax, true⟩

namespace RxLink

def start (numDTARXWorker : Nat) : RxLink :=
  ⟨RxM2funcContext.construct, RxSide.construct numDTARXWorker, 0⟩

def accepted (cfg : M2funcConfig) (accepts : Bool) (s : RxLink) : Bool :=
  match s.dta.cxlReqQueue with
  | .read _ :: _ => accepts && !s.nic.m2funcCXLReqBufFull cfg
  | _ => accepts

def requested (cfg : M2funcConfig) (sent : Option CxlPacket) (dta : RxSide) (s : RxLink) : RxLink :=
  match sent with
  | none => { s with dta := dta }
  | some pkt => { s with dta := dta, nic := (s.nic.pushCXLReqBuf cfg pkt).2 }

def step (cfg : M2funcConfig) (cacheLineSize : Nat) (s : RxLink) : RxLinkAct → Sim RxLink
  | .process env packet => do
    let nic ← s.nic.step cfg (.process env packet)
    pure { s with nic := nic }
  | .deliver packet => do
    let nic ← s.nic.step cfg (.deliver packet)
    pure { s with nic := nic }
  | .nicTick env => do
    let nic ← s.nic.step cfg (.tick env)
    pure { s with nic := nic }
  | .job data pkt => do
    let (_, dta) ← s.dta.recvTimingReq data pkt
    pure { s with dta := dta }
  | .checkSubmissionQueue canScheduleTXJob found => do
    let dta ← s.dta.checkSubmissionQueue cacheLineSize canScheduleTXJob found
    pure { s with dta := dta }
  | .transmit => pure { s with dta := { s.dta with cxlReqQueue := s.dta.cxlReqQueue ++ [.write] } }
  | .sendRequestToNIC accepts => do
    let (sent, dta) ← s.dta.sendRequestToNIC (s.accepted cfg accepts)
    pure (s.requested cfg sent dta)
  | .recvReqRetry accepts => do
    let (sent, dta) ← s.dta.recvReqRetry (s.accepted cfg accepts)
    pure (s.requested cfg sent dta)
  | .response =>
    match s.nic.hist.sent[s.delivered]? with
    | none => pure s
    | some (_, pkt) => do
      let dta ← s.dta.recvTimingRespfromNIC pkt
      pure { s with dta := dta, delivered := s.delivered + 1 }
  | .dtaRXStateMachine => do
    let dta ← s.dta.dtaRXStateMachine cacheLineSize
    pure { s with dta := dta }
  | .ioCacheDone k => do
    let dta ← s.dta.ioCacheDone k
    pure { s with dta := dta }

end RxLink

/-- Behind a descriptor of `d` bytes every flit after the first has a byte of the packet
that is not zero. -/
def laterFlitsNonzero (n d : Nat) (data : List UInt8) : Bool :=
  (List.range (d + data.length)).all fun k =>
    decide (k = 0 ∨ d + data.length ≤ k * n) || ((data.drop (k * n - d)).take n).any (· != 0)

def RxLink.NonzeroFlits (s : RxLink) : RxLinkAct → Prop
  | .process env packet => laterFlitsNonzero 64 (descLength env.desctype) packet.data = true
  | .nicTick env => s.nic.rxPacket.all
      (fun packet => laterFlitsNonzero 64 (descLength env.desctype) packet.data) = true
  | _ => True

section Flits

variable {env : RxEnv} {packet : EthPacket} {entry desc : List UInt8} {n : Nat}

theorem checked_odd {r : RxResult} (h : r.status % 2 = 1) (on : Bool) (a b c d : Nat)
    (sum : BitVec 16) : (if on then RxResult.check a b c d sum r else r).status % 2 = 1 := by
  split
  · simp [RxResult.check, h]
  · exact h

theorem status_odd : (RxResult.ofPacket env packet n).status % 2 = 1 := by
  have hstart : (if n = packet.length then RxResult.rxdsDD ||| RxResult.rxdsEOP
      else RxResult.rxdsDD) % 2 = 1 := by
    split <;> rfl
  unfold RxResult.ofPacket
  extract_lets inet r r1 r2
  have hip : r1.status % 2 = 1 := by
    unfold r1
    split
    · extract_lets r3 r4
      apply checked_odd
      unfold r4
      split <;> exact hstart
    · split <;> exact hstart
  have htcp : r2.status % 2 = 1 := by
    unfold r2
    split
    · exact checked_odd hip _ _ _ _ _ _
    · exact hip
  split
  · exact hstart
  · split
    · exact checked_odd htcp _ _ _ _ _ _
    · exact htcp

theorem littleEndian_nonzero {m x : Nat} (hm : 0 < m) (hx : x % 2 = 1) :
    (littleEndian m x).any (· != 0) = true := by
  rw [any_eq_true]
  refine ⟨UInt8.ofNat x, ?_, ?_⟩
  · refine List.mem_map.mpr ⟨0, List.mem_range.mpr hm, ?_⟩
    simp
  · rw [bne_iff_ne]
    intro hzero
    have hnat := congrArg UInt8.toNat hzero
    simp at hnat
    omega

theorem desc_nonzero (h : rxDesc env packet = .ok desc) : desc.any (· != 0) = true := by
  have hodd : (RxResult.ofPacket env packet packet.length).status % 2 = 1 := status_odd
  unfold rxDesc at h
  cases ht : env.desctype with
  | legacy =>
    rw [ht] at h
    cases h
    simp only [any_append, littleEndian_nonzero Nat.one_pos hodd, Bool.or_true, Bool.true_or]
  | advOneBuf =>
    rw [ht] at h
    obtain ⟨_, _, rfl⟩ := map_eq_ok.mp h
    have hstatus := littleEndian_nonzero (m := 4) (by decide)
      (show ((RxResult.ofPacket env packet packet.length).status % 2 ^ 20 +
        (RxResult.ofPacket env packet packet.length).extErr % 2 ^ 12 * 2 ^ 20) % 2 = 1 by omega)
    simp only [any_append, hstatus, Bool.or_true, Bool.true_or]
  | advSplitA | unimplemented k =>
    rw [ht] at h
    cases h

theorem cell_zero_nonzero {rest : List UInt8} (hlen : desc.length ≤ 64)
    (hdesc : desc.any (· != 0) = true) : (cell 64 (desc ++ rest) 0).any (· != 0) = true := by
  rw [cell, drop_zero, take_append, take_of_length_le hlen,
    any_append, hdesc, Bool.true_or]

theorem cells_nonzero (h : encode env 64 packet = .ok entry)
    (hflits : laterFlitsNonzero 64 (descLength env.desctype) packet.data = true) :
    ∀ k < count 64 entry, (cell 64 entry k).any (· != 0) = true := by
  intro k hk
  obtain ⟨desc, hdesc, hpack⟩ := encode_cases h
  obtain ⟨_, htight⟩ := pack_bounds (by decide) (by decide) hpack
  have heq := (pack_eq hpack).1
  have hlen := rxDesc_length hdesc
  have hd : descLength env.desctype ≤ 16 := by
    cases env.desctype <;> simp [descLength]
  have hcells : count 64 entry * 64 ≤ entry.length := Nat.div_mul_le_self _ _
  rw [heq, List.append_assoc]
  by_cases hk0 : k = 0
  · subst hk0
    exact cell_zero_nonzero (by omega) (desc_nonzero hdesc)
  · have hbyte := List.all_eq_true.mp hflits k (List.mem_range.mpr (by omega))
    have hnot : ¬ (k = 0 ∨ descLength env.desctype + packet.data.length ≤ k * 64) := by omega
    rw [decide_eq_false hnot, Bool.false_or, ← hlen] at hbyte
    rw [cell, drop_append, drop_of_length_le (by omega), nil_append,
      drop_append_of_le_length (by omega), take_append, any_append, hbyte,
      Bool.true_or]

end Flits

section Nic

open RxM2funcContext

variable {cfg : M2funcConfig} {env : RxEnv} {s t : RxM2funcContext}

structure SendsNonzero (cfg : M2funcConfig) (s : RxM2funcContext) : Prop where
  stream : Stream cfg s
  jobs : Jobs cfg s
  given : ∀ x ∈ s.hist.given, ∀ k < count 64 x.2, (cell 64 x.2 k).any (· != 0) = true
  sent : ∀ pkt, (.flit, pkt) ∈ s.hist.sent → pkt.data.any (· != 0) = true

theorem SendsNonzero.construct (cfg : M2funcConfig) : SendsNonzero cfg construct where
  stream := Stream.construct cfg
  jobs := Jobs.construct cfg
  given := by simp [RxM2funcContext.construct]
  sent := by simp [RxM2funcContext.construct]

variable {pkt : CxlPacket}

theorem answered_nonzero (hflit : cfg.flitSize = 64) (hstream : Stream cfg s)
    (hgiven : ∀ x ∈ s.hist.given, ∀ k < count 64 x.2, (cell 64 x.2 k).any (· != 0) = true)
    (hpkt : (.flit, pkt) ∈ s.hist.answered) : pkt.data.any (· != 0) = true := by
  obtain ⟨k, hk⟩ := hstream.position
  have hmem : (pkt.data, pkt.ddioHeader) ∈ flits s.hist.answered :=
    List.mem_map.mpr ⟨(.flit, pkt), List.mem_filter.mpr ⟨hpkt, rfl⟩, rfl⟩
  have hflow : (pkt.data, pkt.ddioHeader) ∈ s.entries.flatMap (marked cfg.flitSize) := by
    rw [← hk.flow]
    exact mem_append_left _ hmem
  obtain ⟨b, hb, hcell⟩ := List.mem_flatMap.mp hflow
  obtain ⟨x, hx, rfl⟩ := List.mem_map.mp hb
  rw [hflit] at hcell
  obtain ⟨i, hi, heq⟩ := List.mem_map.mp hcell
  rw [← (Prod.mk.inj heq).1]
  exact hgiven x hx i (List.mem_range.mp hi)

theorem answerFlit_hist {req : CxlPacket} {reqs : List CxlPacket} (hn : 0 < cfg.flitSize)
    (hstream : Stream cfg s) (hfifo : s.m2funcRxFifo ≠ []) (hfresh : Fresh cfg req)
    (hs : answerFlit cfg env req reqs s = .ok t) :
    ∃ pkt, t.hist.given = s.hist.given ∧ (.flit, pkt) ∈ t.hist.answered ∧
      t.hist.sent = s.hist.sent ++ [(.flit, pkt)] := by
  obtain ⟨k, hk⟩ := hstream.position
  obtain ⟨entry, rest, hcons⟩ := exists_cons_of_ne_nil hfifo
  have hpos : Position cfg { s with m2funcCXLReqBuf := reqs } k := hk.of_same rfl rfl rfl rfl rfl
  obtain ⟨⟨pkt, u⟩, hread, hs⟩ := bind_eq_ok.mp hs
  cases hs
  rw [readM2funcPacket_flit hn hpos hcons hfresh] at hread
  cases hread
  refine ⟨⟨req.req, req.jobID, cell cfg.flitSize entry k, k == 0⟩, ?_, ?_, ?_⟩
  · simp [sendCXLResp, logRead, advance_hist]
  · simp [sendCXLResp, logRead]
  · simp [sendCXLResp, logRead, advance_hist]

theorem SendsNonzero.answerRequest (hflit : cfg.flitSize = 64) (h : SendsNonzero cfg s)
    (hs : s.answerRequest cfg env = .ok t) : SendsNonzero cfg t ∧ s.hist.sent ⊆ t.hist.sent := by
  have hn : 0 < cfg.flitSize := by omega
  obtain ⟨hstream, hjobs, _⟩ := h.stream.answerRequest hn h.jobs hs
  rcases answerRequest_cases hs with rfl | ⟨req, reqs, started, jobs, hbuf, hkeep, hcase⟩
  · exact ⟨h, List.Subset.refl _⟩
  · rcases hcase with ⟨_, hanswer⟩ | ⟨_, hfifo, hanswer⟩
    · obtain ⟨pkt, _, rfl⟩ := map_eq_ok.mp hanswer
      refine ⟨⟨hstream, hjobs, h.given, ?_⟩, subset_append_left _ _⟩
      intro p hp
      rcases List.mem_append.mp hp with hp | hp
      · exact h.sent p hp
      · cases List.mem_singleton.mp hp
    · have hfresh := h.jobs.fresh req (by rw [hbuf]; exact mem_cons_self)
      have hsame : Stream cfg { s with isLoadGenStarted := started, dtaRXJobSuccess := jobs } :=
        h.stream.of_same rfl rfl rfl rfl rfl
      obtain ⟨pkt, hgiven, hpkt, hsent⟩ := answerFlit_hist hn hsame hfifo hfresh hanswer
      have hcells : ∀ x ∈ t.hist.given, ∀ k < count 64 x.2, (cell 64 x.2 k).any (· != 0) = true :=
        hgiven ▸ h.given
      refine ⟨⟨hstream, hjobs, hcells, ?_⟩, hsent ▸ subset_append_left _ _⟩
      intro p hp
      rw [hsent] at hp
      rcases List.mem_append.mp hp with hp | hp
      · exact h.sent p hp
      · cases List.mem_singleton.mp hp
        exact answered_nonzero hflit hstream hcells hpkt

theorem SendsNonzero.process {packet : EthPacket} (hflit : cfg.flitSize = 64)
    (h : SendsNonzero cfg s)
    (hpacket : laterFlitsNonzero 64 (descLength env.desctype) packet.data = true)
    (hs : s.processRxPacket cfg env packet = .ok t) :
    SendsNonzero cfg t ∧ t.hist.sent = s.hist.sent := by
  have hstream := h.stream.process hs
  obtain ⟨entry, hentry, rfl⟩ := map_eq_ok.mp hs
  refine ⟨⟨hstream, h.jobs.of_same rfl rfl rfl rfl, ?_, h.sent⟩, rfl⟩
  intro x hx
  rcases List.mem_append.mp hx with hx | hx
  · exact h.given x hx
  · rw [List.mem_singleton.mp hx]
    exact cells_nonzero (hflit ▸ hentry) hpacket

theorem SendsNonzero.tick (hflit : cfg.flitSize = 64) (h : SendsNonzero cfg s)
    (hpacket : s.rxPacket.all
      (fun packet => laterFlitsNonzero 64 (descLength env.desctype) packet.data) = true)
    (hs : s.rxM2funcStateMachine cfg env = .ok t) :
    SendsNonzero cfg t ∧ s.hist.sent ⊆ t.hist.sent := by
  have hn : 0 < cfg.flitSize := by omega
  obtain ⟨u, hu, hs⟩ := bind_eq_ok.mp hs
  obtain ⟨_, _, hsame⟩ := h.stream.dtaResponse hn h.jobs hu
  obtain ⟨hgood, hmore⟩ : SendsNonzero cfg u ∧ s.hist.sent ⊆ u.hist.sent := by
    unfold dtaResponse at hu
    split at hu
    · exact h.answerRequest hflit hu
    · cases hu
      exact ⟨h, List.Subset.refl _⟩
  unfold takePacket at hs
  split at hs
  · cases hs
    exact ⟨hgood, hmore⟩
  · rename_i packet hp
    split at hs
    · cases hs
      exact ⟨hgood, hmore⟩
    · obtain ⟨v, hv, rfl⟩ := map_eq_ok.mp hs
      rw [← hsame, hp] at hpacket
      obtain ⟨hnext, hsent⟩ := hgood.process hflit hpacket hv
      exact ⟨⟨hnext.stream.of_same rfl rfl rfl rfl rfl, hnext.jobs.of_same rfl rfl rfl rfl,
        hnext.given, hnext.sent⟩, hsent ▸ hmore⟩

theorem SendsNonzero.deliver {packet : EthPacket} (h : SendsNonzero cfg s) :
    SendsNonzero cfg { s with rxPacket := s.rxPacket.or (some packet) } :=
  ⟨h.stream.of_same rfl rfl rfl rfl rfl, h.jobs.of_same rfl rfl rfl rfl, h.given, h.sent⟩

theorem SendsNonzero.request (h : SendsNonzero cfg s) (hpkt : Fresh cfg pkt) :
    SendsNonzero cfg (s.pushCXLReqBuf cfg pkt).2 := by
  refine ⟨h.stream.request, h.jobs.push hpkt, ?_, ?_⟩
  · unfold pushCXLReqBuf
    split <;> exact h.given
  · unfold pushCXLReqBuf
    split <;> exact h.sent

theorem pushCXLReqBuf_sent : (s.pushCXLReqBuf cfg pkt).2.hist.sent = s.hist.sent := by
  unfold pushCXLReqBuf
  split <;> rfl

end Nic

namespace RxLink

variable {cfg : M2funcConfig} {cacheLineSize : Nat} {s t : RxLink}

structure Heard (s : RxLink) : Prop where
  flit : ∀ pkt, s.nic.hist.sent[s.delivered]? = some (.flit, pkt) →
    ∀ dta, s.dta.recvTimingRespfromNIC pkt = .ok dta →
      dta.ioCacheRequestQueue = s.dta.ioCacheRequestQueue ∧
      dta.rxContextIDQueue = s.dta.rxContextIDQueue ∧
      dta.contexts.map (·.valid) = s.dta.contexts.map (·.valid)
  zeroed : ∀ jobID ∈ s.dta.noPacketJobs, ∃ pkt, (.zeroed, pkt) ∈ s.nic.hist.sent ∧
    pkt.jobID = jobID

structure Tells (cfg : M2funcConfig) (s : RxLink) : Prop where
  nic : SendsNonzero cfg s.nic
  fresh : ∀ pkt, .read pkt ∈ s.dta.cxlReqQueue → RxM2funcContext.Fresh cfg pkt
  zeroed : ∀ jobID ∈ s.dta.noPacketJobs, ∃ pkt, (.zeroed, pkt) ∈ s.nic.hist.sent ∧
    pkt.jobID = jobID

theorem Tells.of_nic {nic : RxM2funcContext} (h : Tells cfg s) (hnic : SendsNonzero cfg nic)
    (hsent : s.nic.hist.sent ⊆ nic.hist.sent) : Tells cfg { s with nic := nic } := by
  refine ⟨hnic, h.fresh, ?_⟩
  intro jobID hjob
  obtain ⟨pkt, hpkt, heq⟩ := h.zeroed jobID hjob
  exact ⟨pkt, hsent hpkt, heq⟩

variable {dta : RxSide}

theorem Tells.of_dta (h : Tells cfg s)
    (hside : dta.requestSide = s.dta.requestSide) : Tells cfg { s with dta := dta } := by
  simp only [RxSide.requestSide, Prod.mk.injEq] at hside
  obtain ⟨hqueue, _, _, _, htold⟩ := hside
  refine ⟨h.nic, ?_, ?_⟩
  · simpa only [hqueue] using h.fresh
  · simpa only [htold] using h.zeroed

theorem Tells.requestMore (hflit : cfg.flitSize = 64) (h : Tells cfg s)
    (hs : s.dta.requestMore = .ok dta) : Tells cfg { s with dta := dta } := by
  rcases RxSide.requestMore_cases hs with ⟨n, rfl, _⟩ | ⟨i, rest, c, _, _, _, rfl⟩
  · exact ⟨h.nic, h.fresh, h.zeroed⟩
  · refine ⟨h.nic, ?_, h.zeroed⟩
    intro pkt hpkt
    rcases List.mem_append.mp hpkt with hpkt | hpkt
    · exact h.fresh pkt hpkt
    · cases List.mem_singleton.mp hpkt
      exact ⟨by simp [RxSide.createDTARequest, hflit], rfl⟩

theorem Tells.sendRequestToNIC {accepts : Bool} {sent : Option CxlPacket}
    (hflit : cfg.flitSize = 64) (h : Tells cfg s)
    (hs : s.dta.sendRequestToNIC accepts = .ok (sent, dta)) :
    Tells cfg (s.requested cfg sent dta) := by
  obtain ⟨⟨front, u⟩, hfront, hs⟩ := bind_eq_ok.mp hs
  obtain ⟨v, hv, hs⟩ := bind_eq_ok.mp hs
  cases hs
  obtain ⟨rfl, waits, rfl⟩ | ⟨rest, hqueue, rfl, rfl⟩ | ⟨pkt, rest, hqueue, rfl, _, _, rfl⟩ :=
    RxSide.sendFront_cases hfront
  · have hsame : Tells cfg { s with dta := { s.dta with waitingOnRetry := waits } } :=
      ⟨h.nic, h.fresh, h.zeroed⟩
    have hmore := hsame.requestMore hflit hv
    exact hmore
  · have hrest : Tells cfg { s with dta := { s.dta with cxlReqQueue := rest } } :=
      ⟨h.nic, fun pkt hpkt => h.fresh pkt (by rw [hqueue]; exact mem_cons_of_mem _ hpkt),
        h.zeroed⟩
    have hmore := hrest.requestMore hflit hv
    exact hmore
  · have hfresh := h.fresh pkt (by rw [hqueue]; exact mem_cons_self)
    have hrest : Tells cfg ⟨(s.nic.pushCXLReqBuf cfg pkt).2, { s.dta with
        cxlReqQueue := rest, dtaRequestTracker := s.dta.dtaRequestTracker ++ [pkt.req] },
        s.delivered⟩ := by
      refine ⟨h.nic.request hfresh, ?_, ?_⟩
      · exact fun q hq => h.fresh q (by rw [hqueue]; exact mem_cons_of_mem _ hq)
      · simpa only [pushCXLReqBuf_sent] using h.zeroed
    exact hrest.requestMore hflit hv

theorem Tells.response {a : Answer} {pkt : CxlPacket} (h : Tells cfg s)
    (hpkt : s.nic.hist.sent[s.delivered]? = some (a, pkt))
    (hs : s.dta.recvTimingRespfromNIC pkt = .ok dta) :
    Tells cfg { s with dta := dta, delivered := s.delivered + 1 } := by
  have hmem := mem_of_getElem? hpkt
  obtain ⟨rfl, _⟩ | ⟨i, rest, c, _, _, _, hjob, _, ⟨hzero, rfl⟩ | ⟨_, rfl⟩⟩ :=
    RxSide.recvTimingRespfromNIC_cases hs
  · exact ⟨h.nic, h.fresh, h.zeroed⟩
  · refine ⟨h.nic, h.fresh, ?_⟩
    intro jobID hin
    rcases List.mem_append.mp hin with hin | hin
    · exact h.zeroed jobID hin
    · cases a with
      | zeroed => exact ⟨pkt, hmem, hjob.symm.trans (List.mem_singleton.mp hin).symm⟩
      | flit =>
        rw [h.nic.sent pkt hmem] at hzero
        cases hzero
  · exact ⟨h.nic, h.fresh, h.zeroed⟩

theorem Tells.start (cfg : M2funcConfig) (numDTARXWorker : Nat) :
    Tells cfg (start numDTARXWorker) where
  nic := SendsNonzero.construct cfg
  fresh := by simp [RxLink.start, RxSide.construct]
  zeroed := by simp [RxLink.start, RxSide.construct]

theorem Tells.step {a : RxLinkAct} (hflit : cfg.flitSize = 64) (h : Tells cfg s)
    (ha : s.NonzeroFlits a) (hs : s.step cfg cacheLineSize a = .ok t) : Tells cfg t := by
  cases a with
  | process env packet =>
    obtain ⟨nic, hnic, rfl⟩ := map_eq_ok.mp hs
    obtain ⟨hgood, hsent⟩ := h.nic.process hflit ha hnic
    exact h.of_nic hgood (hsent ▸ List.Subset.refl _)
  | deliver packet =>
    obtain ⟨nic, hnic, rfl⟩ := map_eq_ok.mp hs
    cases hnic
    exact h.of_nic h.nic.deliver (List.Subset.refl _)
  | nicTick env =>
    obtain ⟨nic, hnic, rfl⟩ := map_eq_ok.mp hs
    obtain ⟨hgood, hsent⟩ := h.nic.tick hflit ha hnic
    exact h.of_nic hgood hsent
  | job data pkt =>
    obtain ⟨⟨taken, dta⟩, hdta, hs⟩ := bind_eq_ok.mp hs
    cases hs
    apply h.of_dta
    rcases RxSide.recvTimingReq_cases hdta with rfl | rfl <;> rfl
  | checkSubmissionQueue canScheduleTXJob found =>
    obtain ⟨dta, hdta, rfl⟩ := map_eq_ok.mp hs
    exact h.of_dta (RxSide.checkSubmissionQueue_requestSide hdta)
  | transmit =>
    cases hs
    refine ⟨h.nic, ?_, h.zeroed⟩
    intro pkt hpkt
    rcases List.mem_append.mp hpkt with hpkt | hpkt
    · exact h.fresh pkt hpkt
    · cases List.mem_singleton.mp hpkt
  | sendRequestToNIC accepts =>
    obtain ⟨⟨sent, dta⟩, hdta, hs⟩ := bind_eq_ok.mp hs
    cases hs
    exact h.sendRequestToNIC hflit hdta
  | recvReqRetry accepts =>
    obtain ⟨⟨sent, dta⟩, hdta, hs⟩ := bind_eq_ok.mp hs
    cases hs
    obtain ⟨_, _, hdta⟩ := bind_eq_ok.mp hdta
    have hsame : Tells cfg { s with dta := { s.dta with waitingOnRetry := false } } :=
      ⟨h.nic, h.fresh, h.zeroed⟩
    have hnext := hsame.sendRequestToNIC hflit hdta
    cases sent <;> exact hnext
  | response =>
    simp only [RxLink.step] at hs
    split at hs
    · cases hs
      exact h
    · rename_i a pkt hpkt
      obtain ⟨dta, hdta, rfl⟩ := map_eq_ok.mp hs
      exact h.response hpkt hdta
  | dtaRXStateMachine =>
    obtain ⟨dta, hdta, rfl⟩ := map_eq_ok.mp hs
    exact h.of_dta (RxSide.dtaRXStateMachine_requestSide hdta)
  | ioCacheDone k =>
    obtain ⟨dta, hdta, rfl⟩ := map_eq_ok.mp hs
    exact h.of_dta (RxSide.ioCacheDone_requestSide hdta)

theorem valid_set {contexts : List DTARXContext} {i : Nat} {c d : DTARXContext}
    (hc : contexts[i]? = some c) (hd : d.valid = c.valid) :
    (contexts.set i d).map (·.valid) = contexts.map (·.valid) := by
  obtain ⟨hlt, rfl⟩ := List.getElem?_eq_some_iff.mp hc
  apply ext_getElem?
  intro k
  by_cases hk : i = k
  · subst hk
    simp [hlt, hd]
  · simp [hk]

theorem Tells.heard (h : Tells cfg s) : Heard s where
  flit := by
    intro pkt hpkt dta hdta
    have hnonzero := h.nic.sent pkt (mem_of_getElem? hpkt)
    obtain ⟨rfl, _⟩ | ⟨i, rest, c, hqueue, hc, _, _, _, ⟨hzero, _⟩ | ⟨_, rfl⟩⟩ :=
      RxSide.recvTimingRespfromNIC_cases hdta
    · exact ⟨rfl, rfl, rfl⟩
    · rw [hnonzero] at hzero
      cases hzero
    · refine ⟨rfl, rfl, ?_⟩
      simp only [RxSide.takeResponse, RxSide.setContext, set_set]
      apply valid_set hc
      unfold DTARXContext.countResponse
      split <;> rfl
  zeroed := h.zeroed

/-- In every run of the device and the accelerator in which the packets have no flit of
zeros behind the first, a flit is never taken for "no packet". -/
theorem flit_never_no_packet (rxContextFifoSize numFreeCXLReqMax cacheLineSize numDTARXWorker : Nat)
    (s : RxLink)
    (h : Reach (step (linkConfig rxContextFifoSize numFreeCXLReqMax) cacheLineSize) NonzeroFlits
      (start numDTARXWorker) s) : Heard s := by
  have htells : Tells (linkConfig rxContextFifoSize numFreeCXLReqMax) s := by
    apply Reach.invariant (P := Tells (linkConfig rxContextFifoSize numFreeCXLReqMax)) h
    · exact Tells.start _ _
    · intro u v a hu ha hs
      exact hu.step rfl ha hs
  exact htells.heard

instance (s : RxLink) (a : RxLinkAct) : Decidable (s.NonzeroFlits a) :=
  match a with
  | .process _ _ => inferInstanceAs (Decidable (_ = _))
  | .nicTick _ => inferInstanceAs (Decidable (_ = _))
  | .deliver _ | .job _ _ | .checkSubmissionQueue _ _ | .transmit | .sendRequestToNIC _
  | .recvReqRetry _ | .response | .dtaRXStateMachine | .ioCacheDone _ => isTrue trivial

def oneBuffer : JobPacket := ⟨[0x1000, 1, 0x2000, 0, 0, 0, 0, 0], rfl⟩

def receiveTwoFlits (packet : EthPacket) : List RxLinkAct :=
  [.job .static oneBuffer, .checkSubmissionQueue false false, .sendRequestToNIC true,
    .sendRequestToNIC true, .process RxM2funcContext.plainRxEnv packet,
    .nicTick RxM2funcContext.plainRxEnv, .response, .dtaRXStateMachine, .sendRequestToNIC true,
    .sendRequestToNIC true, .nicTick RxM2funcContext.plainRxEnv, .response]

theorem flit_never_no_packet_two_flits :
    ∃ s, Reach (step (linkConfig 4 4) 64) NonzeroFlits (start 1) s ∧
      s.dta.contexts.map (·.nExtraCxlReqReceived) = 1 :: List.replicate 9 0 ∧ Heard s := by
  obtain ⟨s, hs, hp⟩ := Reach.exists_of_runFrom (step (linkConfig 4 4) 64) NonzeroFlits (start 1)
    (receiveTwoFlits ⟨List.replicate 112 1⟩)
    (fun s => s.dta.contexts.map (·.nExtraCxlReqReceived) = 1 :: List.replicate 9 0)
    (by decide +kernel)
  exact ⟨s, hs, hp, flit_never_no_packet 4 4 64 1 s hs⟩

/-- When the second flit is zero, the job is told that there is no packet, though the
device has only sent flits. -/
theorem zero_flit_taken_for_no_packet :
    ∃ s, Reach (step (linkConfig 4 4) 64) (fun _ _ => True) (start 1) s ∧ ¬ Heard s := by
  obtain ⟨s, hs, hp⟩ := Reach.exists_of_runFrom (step (linkConfig 4 4) 64) (fun _ _ => True)
    (start 1) (receiveTwoFlits ⟨List.replicate 48 1 ++ List.replicate 64 0⟩)
    (fun s => decide (s.dta.noPacketJobs = [1]) && s.nic.hist.sent.all fun x => x.1 == .flit)
    (by decide +kernel)
  simp only [Bool.and_eq_true, decide_eq_true_eq] at hp
  refine ⟨s, hs, fun h => ?_⟩
  obtain ⟨pkt, hpkt, _⟩ := h.zeroed 1 (by rw [hp.1]; exact mem_cons_self)
  have hkind := List.all_eq_true.mp hp.2 _ hpkt
  cases hkind

end RxLink

end Gem5.DTA
