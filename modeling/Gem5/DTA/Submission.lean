import Gem5.DTA.HostJob
import Gem5.DTA.RxJobs
import Gem5.Shared.Reachability

/-!
# The submission of receive jobs

The host sends the packets of its jobs in order and repeats a packet that was refused.
Whether a packet begins a job is decided twice: when it arrives, from the contexts parsed
so far, and when it is parsed. `HostRun` counts the packets that the accelerator said it
took and records the buffers of the jobs that have ended.
-/

namespace Gem5.DTA

open List IGbE Nat

def DTARXContext.buffers (c : DTARXContext) : Nat × List Nat :=
  (c.rxJobID, c.mbufAddr.take c.nMbufAddrReceived)

structure HostRun where
  dta : RxSide
  sent : Nat
  ended : List (Nat × List Nat)

inductive HostAct where
  | submit (data : PacketData)
  | checkSubmissionQueue (canScheduleTXJob found : Bool)
  | sendRequestToNIC (accepts : Bool)
  | recvReqRetry (accepts : Bool)
  | recvTimingRespfromNIC (pkt : CxlPacket)
  | dtaRXStateMachine
  | ioCacheDone (k : Nat)

namespace HostRun

def start (numDTARXWorker : Nat) : HostRun := ⟨.construct numDTARXWorker, 0, []⟩

def cleared (before after : List DTARXContext) : List (Nat × List Nat) :=
  ((before.zip after).filter fun p => p.1.valid && !p.2.valid).map fun p => p.1.buffers

def after (dta : RxSide) (s : HostRun) : HostRun :=
  { s with dta := dta, ended := s.ended ++ cleared s.dta.contexts dta.contexts }

def submit (jobs : List HostJob) (data : PacketData) (s : HostRun) : Sim HostRun :=
  match (stream jobs)[s.sent]? with
  | none => pure s
  | some pkt => do
    let (taken, dta) ← s.dta.recvTimingReq data pkt
    pure { s with dta := dta, sent := if taken then s.sent + 1 else s.sent }

def step (jobs : List HostJob) (cacheLineSize : Nat) (s : HostRun) : HostAct → Sim HostRun
  | .submit data => s.submit jobs data
  | .checkSubmissionQueue canScheduleTXJob found => do
    let dta ← s.dta.checkSubmissionQueue cacheLineSize canScheduleTXJob found
    pure (s.after dta)
  | .sendRequestToNIC accepts => do
    let (_, dta) ← s.dta.sendRequestToNIC accepts
    pure (s.after dta)
  | .recvReqRetry accepts => do
    let (_, dta) ← s.dta.recvReqRetry accepts
    pure (s.after dta)
  | .recvTimingRespfromNIC pkt => do
    let dta ← s.dta.recvTimingRespfromNIC pkt
    pure (s.after dta)
  | .dtaRXStateMachine => do
    let dta ← s.dta.dtaRXStateMachine cacheLineSize
    pure (s.after dta)
  | .ioCacheDone k => do
    let dta ← s.dta.ioCacheDone k
    pure (s.after dta)

def lists (s : HostRun) : List (Nat × List Nat) :=
  s.ended ++ (s.dta.contexts.filter DTARXContext.valid).map DTARXContext.buffers

def NoneLost (jobs : List HostJob) (s : HostRun) : Prop :=
  s.dta.rxJobSubmissionQueue = [] →
    (∀ i job, jobs[i]? = some job → 0 < packetsIn jobs s.sent i job →
      ∃ list, (i + 1, list) ∈ s.lists) ∧
    ∀ entry ∈ s.lists, ∃ i job, jobs[i]? = some job ∧
      entry = (i + 1, job.addressesIn (packetsIn jobs s.sent i job))

def InStage (jobs : List HostJob) (s : HostRun) : HostAct → Prop
  | .submit data => ∀ pkt ∈ (stream jobs)[s.sent]?,
      s.dta.rxJobSubmissionQueue.length < submissionQueueMaxSize → data.copy pkt = pkt ∧
      (getInitializationStageRXContextID s.dta.contexts = .ok none → pkt.word 1 ≤ 1024)
  | .recvTimingRespfromNIC pkt => ∀ i ∈ s.dta.rxContextIDQueue.head?, ∀ c ∈ s.dta.contexts[i]?,
      c.valid = true → c.rxJobID = pkt.jobID → pkt.data.any (· != 0) = false →
      c.inInitializationStage = false
  | _ => True

instance (jobs : List HostJob) (s : HostRun) : ∀ a, Decidable (InStage jobs s a)
  | .submit _ => inferInstanceAs (Decidable (∀ pkt ∈ (stream jobs)[s.sent]?, _ → _ ∧ (_ → _)))
  | .recvTimingRespfromNIC _ => inferInstanceAs (Decidable
      (∀ i ∈ s.dta.rxContextIDQueue.head?, ∀ c ∈ s.dta.contexts[i]?, _ → _ → _ → _))
  | .checkSubmissionQueue _ _ | .sendRequestToNIC _ | .recvReqRetry _ | .dtaRXStateMachine
  | .ioCacheDone _ => inferInstanceAs (Decidable True)

end HostRun

section Contexts

variable {c d : DTARXContext} {pkt : JobPacket}

structure Sound (c : DTARXContext) : Prop where
  size : c.mbufAddr.length = dtaMaxMbufNum
  max : c.nbPkts ≤ dtaMaxMbufNum
  rest : ∀ addr ∈ c.mbufAddr.drop c.nMbufAddrReceived, addr = 0
  free : c.valid = false → c.nMbufAddrReceived = 0
  noZero : c.rxCompleteMap 0 = none
  stage : c.completionStage = true → c.nbPkts ≤ c.nMbufAddrReceived

theorem Sound.clear : Sound DTARXContext.clear where
  size := length_replicate
  max := zero_le _
  rest := fun _ h => (mem_replicate.mp (mem_of_mem_drop h)).2
  free := fun _ => rfl
  noZero := rfl
  stage := nofun

theorem Sound.all_received (h : Sound c)
    (hall : ∀ addr ∈ c.mbufAddr.take c.nbPkts, (c.rxCompleteMap addr).isSome = true) :
    c.nbPkts ≤ c.nMbufAddrReceived := by
  by_contra hlt
  have hmax := h.max
  have hin : c.nMbufAddrReceived < c.mbufAddr.length := by
    rw [h.size]
    omega
  have hzero : c.mbufAddr[c.nMbufAddrReceived] = 0 :=
    h.rest _ (mem_iff_getElem?.mpr ⟨0, by
      rw [List.getElem?_drop, add_zero, List.getElem?_eq_getElem hin]⟩)
  have hmem : (0 : Nat) ∈ c.mbufAddr.take c.nbPkts := by
    rw [← hzero]
    exact mem_take_iff_getElem.mpr ⟨c.nMbufAddrReceived, by omega, rfl⟩
  have hkey := hall 0 hmem
  rw [h.noZero] at hkey
  cases hkey

theorem Sound.serves (h : Sound c) (hd : Serves c d) : Sound d where
  size := by rw [hd.mbufAddr, h.size]
  max := hd.nbPkts ▸ h.max
  rest := by
    rw [hd.mbufAddr, hd.nMbufAddrReceived]
    exact h.rest
  free := by
    rw [hd.valid, hd.nMbufAddrReceived]
    exact h.free
  noZero := by
    have hkey := hd.keys 0
    rw [h.noZero] at hkey
    exact Option.not_isSome_iff_eq_none.mp (by rw [hkey]; exact Bool.false_ne_true)
  stage := by
    intro hstage
    rw [hd.nbPkts, hd.nMbufAddrReceived]
    rcases hd.stage hstage with hc | hall
    · exact h.stage hc
    · exact h.all_received hall

theorem Sound.not_inStage (h : Sound c) (hd : Serves c d) (hstage : d.completionStage = true) :
    c.inInitializationStage = false := by
  have hall := (h.serves hd).stage hstage
  rw [hd.nbPkts, hd.nMbufAddrReceived] at hall
  unfold DTARXContext.inInitializationStage
  rw [decide_eq_false (Nat.not_lt_of_le hall), Bool.and_false]

theorem Sound.storeMbufAddrs {addrs : List Nat} (h : Sound c) (hstage : c.completionStage = false)
    (hvalid : c.valid = true) (hnonzero : ∀ addr ∈ addrs, addr ≠ 0)
    (hd : c.storeMbufAddrs addrs = .ok d) :
    Sound d ∧ d.valid = true ∧ d.rxJobID = c.rxJobID ∧ d.nbPkts = c.nbPkts ∧
      d.nMbufAddrReceived = c.nMbufAddrReceived + addrs.length ∧
      d.buffers.2 = c.buffers.2 ++ addrs := by
  obtain ⟨hsize, htake, hdrop, hkeys⟩ := storeMbufAddrs_spec hd h.size
  obtain ⟨mbufAddr, written, rfl⟩ := RxSide.storeMbufAddrs_cases hd
  refine ⟨⟨hsize, h.max, ?_, ?_, ?_, ?_⟩, hvalid, rfl, rfl, rfl, htake⟩
  · intro addr haddr
    rw [hdrop] at haddr
    refine h.rest addr ?_
    rw [← drop_drop] at haddr
    exact mem_of_mem_drop haddr
  · intro hinvalid
    exact absurd (hvalid.symm.trans hinvalid) nofun
  · refine Option.not_isSome_iff_eq_none.mp fun hsome => ?_
    rcases hkeys 0 hsome with hmem | hold
    · exact hnonzero 0 hmem rfl
    · rw [h.noZero] at hold
      cases hold
  · intro htrue
    exact absurd (hstage.symm.trans htrue) nofun

theorem Sound.parseFirst {jobID cacheLineSize : Nat} (h : Sound c) (hfree : c.valid = false)
    (hmax : pkt.word 1 ≤ dtaMaxMbufNum)
    (hnonzero : ∀ addr ∈ (pkt.words.drop 2).take (min (pkt.word 1) rxFirstJobPacketNumMbufAddr),
      addr ≠ 0) (hd : c.parseFirst jobID cacheLineSize pkt = .ok d) :
    Sound d ∧ d.valid = true ∧ d.rxJobID = jobID ∧ d.nbPkts = pkt.word 1 ∧
      d.nMbufAddrReceived = d.buffers.2.length ∧
      d.buffers.2 = (pkt.words.drop 2).take (min (pkt.word 1) rxFirstJobPacketNumMbufAddr) := by
  have hnb : pkt.word 1 % 2 ^ 32 = pkt.word 1 :=
    mod_eq_of_lt (hmax.trans_lt (by decide))
  have hsound : Sound (c.begin jobID cacheLineSize pkt) := by
    refine ⟨h.size, ?_, ?_, nofun, rfl, nofun⟩
    · show pkt.word 1 % 2 ^ 32 ≤ _
      omega
    · have hrest := h.rest
      rw [h.free hfree] at hrest
      exact hrest
  unfold DTARXContext.parseFirst at hd
  dsimp only [DTARXContext.begin] at hd
  rw [hnb] at hd
  obtain ⟨hsound, hvalid, hjob, hnbPkts, hreceived, hbuffers⟩ :=
    Sound.storeMbufAddrs (c := c.begin jobID cacheLineSize pkt) hsound rfl rfl hnonzero
      (by unfold DTARXContext.begin; rw [hnb]; exact hd)
  refine ⟨hsound, hvalid, hjob, hnbPkts.trans hnb, ?_, hbuffers⟩
  rw [hreceived, hbuffers]
  exact zero_add _

theorem Sound.parseRest (h : Sound c) (hvalid : c.valid = true)
    (hlt : c.nMbufAddrReceived < c.nbPkts) (hnonzero : ∀ addr ∈ pkt.words.take
      (min restJobPacketNumMbufAddr (c.nbPkts - c.nMbufAddrReceived)), addr ≠ 0)
    (hd : c.parseRest pkt = .ok d) :
    Sound d ∧ d.valid = true ∧ d.rxJobID = c.rxJobID ∧ d.nbPkts = c.nbPkts ∧
      d.nMbufAddrReceived = c.nMbufAddrReceived +
        (pkt.words.take (min restJobPacketNumMbufAddr (c.nbPkts - c.nMbufAddrReceived))).length ∧
      d.buffers.2 = c.buffers.2 ++
        pkt.words.take (min restJobPacketNumMbufAddr (c.nbPkts - c.nMbufAddrReceived)) := by
  obtain ⟨e, he, hd⟩ := bind_eq_ok.mp hd
  obtain ⟨_, _, rfl⟩ := map_eq_ok.mp hd
  have hstage : c.completionStage = false := by
    by_contra hstage
    have hle := h.stage (by simpa using hstage)
    omega
  exact h.storeMbufAddrs hstage hvalid hnonzero he

end Contexts

namespace HostRun

variable {jobs : List HostJob} {n i cacheLineSize : Nat} {job : HostJob} {s t : HostRun}
  {dta : RxSide} {c d : DTARXContext} {pkt : JobPacket}

inductive Moves (cacheLineSize : Nat) (a : HostAct) (s t : RxSide) : Prop
  | kept (h : RxSide.JobsKept s t)
  | noPacket {pkt : CxlPacket} {i : Nat} {c : DTARXContext} (hact : a = .recvTimingRespfromNIC pkt)
      (hfront : s.rxContextIDQueue.head? = some i) (hc : s.contexts[i]? = some c)
      (hvalid : c.valid = true) (hjob : c.rxJobID = pkt.jobID)
      (hzero : pkt.data.any (· != 0) = false) (hends : RxSide.JobEnds i s t)
  | complete {i : Nat} {c d : DTARXContext} (hc : s.contexts[i]? = some c) (hd : Serves c d)
      (hstage : d.completionStage = true) (hends : RxSide.JobEnds i s t)
  | continued {pkt rest k c d} (hp : Parses s t pkt rest k c d)
      (hstage : getInitializationStageRXContextID s.contexts = .ok (some k))
      (hvalid : c.valid = true) (hmissing : c.nMbufAddrReceived < c.nbPkts)
      (hd : c.parseRest pkt = .ok d) (hglobal : t.globalRxJobID = s.globalRxJobID)
  | opened {pkt rest k c d} (hp : Parses s t pkt rest k c d)
      (hstage : getInitializationStageRXContextID s.contexts = .ok none) (hfree : c.valid = false)
      (hd : c.parseFirst (s.globalRxJobID + 1) cacheLineSize pkt = .ok d)
      (hglobal : t.globalRxJobID = s.globalRxJobID + 1)

theorem step_cases {a : HostAct} (ht : s.step jobs cacheLineSize a = .ok t) :
    (∃ data, a = .submit data ∧ s.submit jobs data = .ok t) ∨
      ∃ dta, t = s.after dta ∧ Moves cacheLineSize a s.dta dta := by
  cases a with
  | submit data => exact .inl ⟨data, rfl, ht⟩
  | checkSubmissionQueue canScheduleTXJob found =>
    obtain ⟨dta, hdta, ht⟩ := bind_eq_ok.mp ht
    refine .inr ⟨dta, eq_of_ok ht rfl, ?_⟩
    rcases checkSubmissionQueue_jobs hdta with
      hkept | ⟨pkt, rest, k, c, d, hp, ⟨hstage, hvalid, hmissing, hd, hglobal⟩ |
        ⟨hstage, hfree, hd, hglobal⟩⟩
    · exact .kept hkept
    · exact .continued hp hstage hvalid hmissing hd hglobal
    · exact .opened hp hstage hfree hd hglobal
  | sendRequestToNIC accepts =>
    obtain ⟨⟨sent, dta⟩, hdta, ht⟩ := bind_eq_ok.mp ht
    exact .inr ⟨dta, eq_of_ok ht rfl, .kept (RxSide.sendRequestToNIC_kept hdta)⟩
  | recvReqRetry accepts =>
    obtain ⟨⟨sent, dta⟩, hdta, ht⟩ := bind_eq_ok.mp ht
    exact .inr ⟨dta, eq_of_ok ht rfl, .kept (RxSide.recvReqRetry_kept hdta)⟩
  | recvTimingRespfromNIC pkt =>
    obtain ⟨dta, hdta, ht⟩ := bind_eq_ok.mp ht
    refine .inr ⟨dta, eq_of_ok ht rfl, ?_⟩
    rcases RxSide.recvTimingRespfromNIC_jobs hdta with
      hkept | ⟨i, c, hfront, hc, hvalid, hjob, hzero, hends⟩
    · exact .kept hkept
    · exact .noPacket rfl hfront hc hvalid hjob hzero hends
  | dtaRXStateMachine =>
    obtain ⟨dta, hdta, ht⟩ := bind_eq_ok.mp ht
    refine .inr ⟨dta, eq_of_ok ht rfl, ?_⟩
    rcases RxSide.dtaRXStateMachine_jobs hdta with hkept | ⟨i, c, d, hc, _, hd, hstage, hends⟩
    · exact .kept hkept
    · exact .complete hc hd hstage hends
  | ioCacheDone k =>
    obtain ⟨dta, hdta, ht⟩ := bind_eq_ok.mp ht
    exact .inr ⟨dta, eq_of_ok ht rfl, .kept (RxSide.ioCacheDone_kept hdta)⟩

theorem submit_cases {data : PacketData} (ht : s.submit jobs data = .ok t) :
    t = s ∨ ∃ pkt, (stream jobs)[s.sent]? = some pkt ∧
      s.dta.rxJobSubmissionQueue.length < submissionQueueMaxSize ∧
      ((getInitializationStageRXContextID s.dta.contexts = .ok none ∧ 1024 < pkt.word 1 ∧
          t = { s with sent := s.sent + 1 }) ∨
        ∃ stage, getInitializationStageRXContextID s.dta.contexts = .ok stage ∧
          (stage = none → pkt.word 1 ≤ 1024) ∧
          t = { s with
            dta := { s.dta with
              rxJobSubmissionQueue := s.dta.rxJobSubmissionQueue ++ [data.copy pkt] }
            sent := s.sent + 1 }) := by
  unfold HostRun.submit at ht
  split at ht
  · exact .inl (eq_of_ok ht rfl)
  · rename_i pkt hpkt
    obtain ⟨⟨taken, dta⟩, hrecv, ht⟩ := bind_eq_ok.mp ht
    cases ht
    unfold RxSide.recvTimingReq at hrecv
    split at hrecv
    · cases hrecv
      exact .inl rfl
    · rename_i hroom
      obtain ⟨stage, hinit, hrecv⟩ := bind_eq_ok.mp hrecv
      refine .inr ⟨pkt, hpkt, not_le.mp hroom, ?_⟩
      split at hrecv
      · rename_i hdrop
        simp only [Bool.and_eq_true, Option.isNone_iff_eq_none, decide_eq_true_eq] at hdrop
        cases hrecv
        exact .inl ⟨hdrop.1 ▸ hinit, hdrop.2, rfl⟩
      · rename_i hkeep
        cases hrecv
        refine .inr ⟨stage, hinit, fun hnone => ?_, rfl⟩
        subst hnone
        simpa using hkeep

/-- The context has the buffers of job `i` in the first `n` packets of the stream. -/
structure Holds (jobs : List HostJob) (n i : Nat) (job : HostJob) (c : DTARXContext) : Prop where
  member : jobs[i]? = some job
  begun : position jobs i < n
  nbPkts : c.nbPkts = job.nbPkts
  received : c.nMbufAddrReceived = (job.addressesIn (packetsIn jobs n i job)).length
  buffers : c.buffers = (i + 1, job.addressesIn (packetsIn jobs n i job))

theorem packetsIn_pos (job : HostJob) (h : position jobs i < n) :
    ∃ m, packetsIn jobs n i job = m + 1 := by
  refine exists_eq_succ_of_ne_zero ?_
  unfold packetsIn
  rw [HostJob.packets_length]
  omega

theorem Holds.inInitializationStage_iff (h : Holds jobs n i job c) (hvalid : c.valid = true) :
    c.inInitializationStage = true ↔ packetsIn jobs n i job < job.packets.length := by
  have hstage : c.inInitializationStage = true ↔ c.nMbufAddrReceived < c.nbPkts := by
    unfold DTARXContext.inInitializationStage
    simp [hvalid]
  rw [hstage, h.received, h.nbPkts]
  obtain ⟨m, hm⟩ := packetsIn_pos job h.begun
  constructor
  · intro hlt
    by_contra hall
    have heq : packetsIn jobs n i job = job.packets.length :=
      le_antisymm (Nat.min_le_left _ _) (not_lt.mp hall)
    rw [heq, HostJob.addressesIn_all] at hlt
    exact lt_irrefl _ hlt
  · intro hlt
    rw [hm] at hlt ⊢
    exact HostJob.addressesIn_lt hlt

theorem Holds.serves (h : Holds jobs n i job c) (hd : Serves c d) : Holds jobs n i job d where
  member := h.member
  begun := h.begun
  nbPkts := hd.nbPkts.trans h.nbPkts
  received := hd.nMbufAddrReceived.trans h.received
  buffers := by
    rw [← h.buffers, DTARXContext.buffers, DTARXContext.buffers, hd.rxJobID, hd.mbufAddr,
      hd.nMbufAddrReceived]

def Known (s : HostRun) (id : Nat) : Prop :=
  (∃ list, (id, list) ∈ s.ended) ∨ ∃ c ∈ s.dta.contexts, c.valid = true ∧ c.rxJobID = id

/-- `n` packets of the stream have been parsed, and those behind them wait. -/
structure Tracks (jobs : List HostJob) (n : Nat) (s : HostRun) : Prop where
  sound : ∀ c ∈ s.dta.contexts, Sound c
  parsed_le : n ≤ s.sent
  sent_le : s.sent ≤ (stream jobs).length
  queue : s.dta.rxJobSubmissionQueue = ((stream jobs).take s.sent).drop n
  global : ∀ i job, jobs[i]? = some job → (i < s.dta.globalRxJobID ↔ position jobs i < n)
  live : ∀ c ∈ s.dta.contexts, c.valid = true → ∃ i job, Holds jobs n i job c
  ended : ∀ entry ∈ s.ended, ∃ i job, jobs[i]? = some job ∧
    position jobs i + job.packets.length ≤ n ∧
    entry = (i + 1, job.addressesIn job.packets.length)
  known : ∀ i job, jobs[i]? = some job → position jobs i < n → Known s (i + 1)

theorem Tracks.start (jobs : List HostJob) (numDTARXWorker : Nat) :
    Tracks jobs 0 (start numDTARXWorker) where
  sound := fun c hc => (List.mem_replicate.mp hc).2 ▸ Sound.clear
  parsed_le := zero_le _
  sent_le := zero_le _
  queue := rfl
  global := fun _ _ _ => ⟨nofun, nofun⟩
  live := by
    intro c hc hvalid
    rw [(mem_replicate.mp hc).2] at hvalid
    cases hvalid
  ended := nofun
  known := nofun

theorem mem_cleared {before after : List DTARXContext} {entry : Nat × List Nat} :
    entry ∈ cleared before after ↔ ∃ (k : Nat)
    (c d : DTARXContext), before[k]? = some c ∧ after[k]? = some d ∧
      c.valid = true ∧ d.valid = false ∧ c.buffers = entry := by
  unfold cleared
  rw [mem_map]
  constructor
  · rintro ⟨⟨c, d⟩, hmem, rfl⟩
    rw [mem_filter, mem_iff_getElem?] at hmem
    obtain ⟨⟨k, hk⟩, hvalid⟩ := hmem
    rw [List.getElem?_zip_eq_some] at hk
    simp only [Bool.and_eq_true, Bool.not_eq_true'] at hvalid
    exact ⟨k, c, d, hk.1, hk.2, hvalid.1, hvalid.2, rfl⟩
  · rintro ⟨k, c, d, hc, hd, hvalid, hinvalid, rfl⟩
    refine ⟨(c, d), mem_filter.mpr ⟨?_, by simp [hvalid, hinvalid]⟩, rfl⟩
    exact mem_iff_getElem?.mpr ⟨k, List.getElem?_zip_eq_some.mpr ⟨hc, hd⟩⟩

theorem Known.after {id : Nat} (h : Known s id)
    (hnext : ∀ (k : Nat) (c : DTARXContext), s.dta.contexts[k]? = some c → c.valid = true →
      ∃ d : DTARXContext, dta.contexts[k]? = some d ∧ (d.valid = true → d.rxJobID = c.rxJobID)) :
    Known (s.after dta) id := by
  rcases h with ⟨list, hmem⟩ | ⟨c, hc, hvalid, rfl⟩
  · exact .inl ⟨list, mem_append_left _ hmem⟩
  · obtain ⟨k, hk⟩ := mem_iff_getElem?.mp hc
    obtain ⟨d, hd, hjob⟩ := hnext k c hk hvalid
    cases hdv : d.valid with
    | true => exact .inr ⟨d, mem_of_getElem? hd, hdv, hjob hdv⟩
    | false =>
      refine .inl ⟨c.buffers.2, mem_append_right _ ?_⟩
      exact mem_cleared.mpr ⟨k, c, d, hk, hd, hvalid, hdv, rfl⟩

theorem Tracks.kept (h : Tracks jobs n s) (hk : RxSide.JobsKept s.dta dta) :
    Tracks jobs n (s.after dta) where
  sound := by
    intro d hd
    obtain ⟨c, hc, hcd⟩ := forall₂_mem hk.contexts hd
    exact (h.sound c hc).serves hcd
  parsed_le := h.parsed_le
  sent_le := h.sent_le
  queue := hk.submissions.trans h.queue
  global := by
    show ∀ i job, _ → (i < dta.globalRxJobID ↔ _)
    rw [hk.global]
    exact h.global
  live := by
    intro d hd hvalid
    obtain ⟨c, hc, hcd⟩ := forall₂_mem hk.contexts hd
    obtain ⟨i, job, hholds⟩ := h.live c hc (hcd.valid ▸ hvalid)
    exact ⟨i, job, hholds.serves hcd⟩
  ended := by
    intro entry hentry
    rcases mem_append.mp hentry with hold | hnew
    · exact h.ended entry hold
    · obtain ⟨k, c, d, hc, hd, hvalid, hinvalid, _⟩ := mem_cleared.mp hnew
      obtain ⟨c', hc', hcd⟩ := forall₂_getElem? hk.contexts hd
      obtain rfl := Option.mem_unique hc hc'
      rw [hcd.valid, hvalid] at hinvalid
      cases hinvalid
  known := by
    intro i job hjob hbegun
    refine (h.known i job hjob hbegun).after fun k c hc _ => ?_
    obtain ⟨d, hd, hcd⟩ := forall₂_getElem?_left hk.contexts hc
    exact ⟨d, hd, fun _ => hcd.rxJobID⟩

variable {k : Nat}

theorem Tracks.ends (h : Tracks jobs n s) (hk : RxSide.JobEnds k s.dta dta)
    (hc : s.dta.contexts[k]? = some c) (hstage : c.inInitializationStage = false) :
    Tracks jobs n (s.after dta) := by
  have hlt := (List.getElem?_eq_some_iff.mp hc).1
  have hrest : ∀ j e, dta.contexts[j]? = some e →
      (j = k ∧ Serves DTARXContext.clear e) ∨
        j ≠ k ∧ ∃ e', s.dta.contexts[j]? = some e' ∧ Serves e' e := by
    intro j e he
    obtain ⟨e', he', hserves⟩ := forall₂_getElem? hk.contexts he
    by_cases hjk : j = k
    · subst hjk
      rw [List.getElem?_set_self hlt] at he'
      obtain rfl := Option.some.inj he'
      exact .inl ⟨rfl, hserves⟩
    · rw [List.getElem?_set_ne (Ne.symm hjk)] at he'
      exact .inr ⟨hjk, e', he', hserves⟩
  refine ⟨?_, h.parsed_le, h.sent_le, hk.submissions.trans h.queue, ?_, ?_, ?_, ?_⟩
  · intro d hd
    obtain ⟨j, hj⟩ := mem_iff_getElem?.mp hd
    rcases hrest j d hj with ⟨_, hserves⟩ | ⟨_, e, he, hserves⟩
    · exact Sound.clear.serves hserves
    · exact (h.sound e (mem_of_getElem? he)).serves hserves
  · show ∀ i job, _ → (i < dta.globalRxJobID ↔ _)
    rw [hk.global]
    exact h.global
  · intro d hd hvalid
    obtain ⟨j, hj⟩ := mem_iff_getElem?.mp hd
    rcases hrest j d hj with ⟨_, hserves⟩ | ⟨_, e, he, hserves⟩
    · rw [hserves.valid] at hvalid
      cases hvalid
    · obtain ⟨i, job, hholds⟩ := h.live e (mem_of_getElem? he) (hserves.valid ▸ hvalid)
      exact ⟨i, job, hholds.serves hserves⟩
  · intro entry hentry
    rcases mem_append.mp hentry with hold | hnew
    · exact h.ended entry hold
    · obtain ⟨j, e, d, he, hd, hvalid, hinvalid, rfl⟩ := mem_cleared.mp hnew
      rcases hrest j d hd with ⟨rfl, _⟩ | ⟨_, e', he', hserves⟩
      · obtain rfl := Option.mem_unique hc he
        obtain ⟨i, job, hholds⟩ := h.live c (mem_of_getElem? hc) hvalid
        have hall : ¬ packetsIn jobs n i job < job.packets.length := fun hlt =>
          absurd ((hholds.inInitializationStage_iff hvalid).mpr hlt) (by rw [hstage]; nofun)
        have heq : packetsIn jobs n i job = job.packets.length :=
          le_antisymm (Nat.min_le_left _ _) (not_lt.mp hall)
        refine ⟨i, job, hholds.member, ?_, heq ▸ hholds.buffers⟩
        unfold packetsIn at heq
        have hbegun := hholds.begun
        omega
      · obtain rfl := Option.mem_unique he he'
        rw [hserves.valid, hvalid] at hinvalid
        cases hinvalid
  · intro i job hjob hbegun
    refine (h.known i job hjob hbegun).after fun j e he hvalid => ?_
    by_cases hjk : j = k
    · have hset : (s.dta.contexts.set k DTARXContext.clear)[j]? = some DTARXContext.clear := by
        rw [hjk, List.getElem?_set_self hlt]
      obtain ⟨d, hd, hserves⟩ := forall₂_getElem?_left hk.contexts hset
      refine ⟨d, hd, fun hdv => ?_⟩
      rw [hserves.valid] at hdv
      cases hdv
    · have hset : (s.dta.contexts.set k DTARXContext.clear)[j]? = some e := by
        rw [List.getElem?_set_ne (Ne.symm hjk), he]
      obtain ⟨d, hd, hserves⟩ := forall₂_getElem?_left hk.contexts hset
      exact ⟨d, hd, fun _ => hserves.rxJobID⟩

variable {rest : List JobPacket}

theorem Tracks.next (h : Tracks jobs n s) (hqueue : s.dta.rxJobSubmissionQueue = pkt :: rest) :
    n < s.sent ∧ rest = ((stream jobs).take s.sent).drop (n + 1) ∧
      ∃ i job, jobs[i]? = some job ∧ position jobs i ≤ n ∧
        job.packets[n - position jobs i]? = some pkt := by
  obtain ⟨hlt, hget, hrest⟩ := front_of_queue (h.queue.symm.trans hqueue)
  exact ⟨hlt, hrest, stream_getElem? hget⟩

theorem Tracks.advance (h : Tracks jobs n s) (hp : Parses s.dta dta pkt rest k c d)
    (hle : position jobs i ≤ n) (hpkt : job.packets[n - position jobs i]? = some pkt)
    (hsound : Sound d) (hvalid : d.valid = true) (hholds : Holds jobs (n + 1) i job d)
    (hsame : c.valid = true → c.rxJobID = i + 1)
    (hothers : ∀ (j : Nat) (e : DTARXContext), j ≠ k → s.dta.contexts[j]? = some e →
      e.valid = true → e.rxJobID ≠ i + 1) (hglobal : ∀ j other, jobs[j]? = some other →
      (j < dta.globalRxJobID ↔ position jobs j < n + 1)) : Tracks jobs (n + 1) (s.after dta) := by
  obtain ⟨hqueue, hsub, hc, hcontexts⟩ := hp
  have hlt := (List.getElem?_eq_some_iff.mp hc).1
  obtain ⟨hsent, hrest, _⟩ := h.next hqueue
  have hjob := hholds.member
  have hdjob : d.rxJobID = i + 1 := congrArg Prod.fst hholds.buffers
  have hget : ∀ (j : Nat) (e : DTARXContext), dta.contexts[j]? = some e →
      (j = k ∧ e = d) ∨ (j ≠ k ∧ s.dta.contexts[j]? = some e) := by
    intro j e he
    rw [hcontexts] at he
    by_cases hjk : j = k
    · subst hjk
      rw [List.getElem?_set_self hlt] at he
      exact .inl ⟨rfl, (Option.some.inj he).symm⟩
    · rw [List.getElem?_set_ne (Ne.symm hjk)] at he
      exact .inr ⟨hjk, he⟩
  refine ⟨?_, hsent, h.sent_le, hsub.trans hrest, hglobal, ?_, ?_, ?_⟩
  · intro e he
    obtain ⟨j, hj⟩ := mem_iff_getElem?.mp he
    rcases hget j e hj with ⟨_, rfl⟩ | ⟨_, hold⟩
    · exact hsound
    · exact h.sound e (mem_of_getElem? hold)
  · intro e he hev
    obtain ⟨j, hj⟩ := mem_iff_getElem?.mp he
    rcases hget j e hj with ⟨_, rfl⟩ | ⟨hjk, hold⟩
    · exact ⟨i, job, hholds⟩
    · obtain ⟨i', other, hother⟩ := h.live e (mem_of_getElem? hold) hev
      have hid : e.rxJobID = i' + 1 := congrArg Prod.fst hother.buffers
      have hne : i' ≠ i := by
        rintro rfl
        exact hothers j e hjk hold hev hid
      have hcount := packetsIn_other hjob hle hpkt hother.member hne
      exact ⟨i', other, hother.member, lt_succ_of_lt hother.begun, hother.nbPkts,
        hcount ▸ hother.received, hcount ▸ hother.buffers⟩
  · intro entry hentry
    rcases mem_append.mp hentry with hold | hnew
    · obtain ⟨j, other, hother, hend, rfl⟩ := h.ended entry hold
      exact ⟨j, other, hother, le_succ_of_le hend, rfl⟩
    · obtain ⟨j, e, e', he, he', hev, hinvalid, _⟩ := mem_cleared.mp hnew
      rcases hget j e' he' with ⟨_, rfl⟩ | ⟨_, hold⟩
      · rw [hvalid] at hinvalid
        cases hinvalid
      · obtain rfl := Option.mem_unique he hold
        rw [hev] at hinvalid
        cases hinvalid
  · intro j other hother hbegun
    by_cases hji : j = i
    · subst hji
      refine .inr ⟨d, mem_iff_getElem?.mpr ⟨k, ?_⟩, hvalid, hdjob⟩
      show dta.contexts[k]? = some d
      rw [hcontexts, List.getElem?_set_self hlt]
    · have hbefore := position_lt_of_ne hjob hle hpkt hother hji hbegun
      refine (h.known j other hother hbefore).after fun j' e he hev => ?_
      by_cases hjk : j' = k
      · subst hjk
        obtain rfl := Option.mem_unique hc he
        exact ⟨d, by rw [hcontexts, List.getElem?_set_self hlt],
          fun _ => hdjob.trans (hsame hev).symm⟩
      · exact ⟨e, by rw [hcontexts, List.getElem?_set_ne (Ne.symm hjk), he], fun _ => rfl⟩

theorem Tracks.context_of_begun (h : Tracks jobs n s) (hjob : jobs[i]? = some job)
    (hbegun : position jobs i < n) (hmissing : n < position jobs i + job.packets.length) :
    ∃ c ∈ s.dta.contexts, c.inInitializationStage = true := by
  rcases h.known i job hjob hbegun with ⟨list, hmem⟩ | ⟨c, hc, hvalid, hid⟩
  · obtain ⟨i', other, hother, hend, heq⟩ := h.ended _ hmem
    obtain rfl : i = i' := Nat.succ.inj (congrArg Prod.fst heq)
    obtain rfl := Option.mem_unique hjob hother
    omega
  · obtain ⟨i', other, hholds⟩ := h.live c hc hvalid
    have hid' : c.rxJobID = i' + 1 := congrArg Prod.fst hholds.buffers
    obtain rfl : i = i' := Nat.succ.inj (hid.symm.trans hid')
    obtain rfl := Option.mem_unique hjob hholds.member
    refine ⟨c, hc, (hholds.inInitializationStage_iff hvalid).mpr ?_⟩
    unfold packetsIn
    omega

theorem Holds.of_next {j : Nat} {other : HostJob} (hholds : Holds jobs n j other c)
    (hvalid : c.valid = true) (hstage : c.inInitializationStage = true)
    (hjob : jobs[i]? = some job) (hle : position jobs i ≤ n)
    (hpkt : job.packets[n - position jobs i]? = some pkt) : j = i := by
  have hlt := (List.getElem?_eq_some_iff.mp hpkt).1
  have hmissing := (hholds.inInitializationStage_iff hvalid).mp hstage
  have hbegun := hholds.begun
  unfold packetsIn at hmissing
  rcases Nat.lt_trichotomy j i with hji | heq | hij
  · have hend := position_end_le hholds.member hji
    omega
  · exact heq
  · have hend := position_end_le hjob hij
    omega

section

variable (h : Tracks jobs n s)
include h

theorem Tracks.continued (hp : Parses s.dta dta pkt rest k c d)
    (hglobal : dta.globalRxJobID = s.dta.globalRxJobID)
    (hstage : getInitializationStageRXContextID s.dta.contexts = .ok (some k))
    (hvalid : c.valid = true) (hmissing : c.nMbufAddrReceived < c.nbPkts)
    (hd : c.parseRest pkt = .ok d) : Tracks jobs (n + 1) (s.after dta) := by
  obtain ⟨_, _, i, job, hjob, hle, hpkt⟩ := h.next hp.queue
  have hc := hp.context
  obtain ⟨hcount, hcount'⟩ := packetsIn_own hle hpkt
  obtain ⟨c', hc', hinit, hunique⟩ := getInitializationStage_some hstage
  obtain rfl := Option.mem_unique hc hc'
  obtain ⟨j, other, hholds⟩ := h.live c (mem_of_getElem? hc) hvalid
  obtain rfl := hholds.of_next hvalid hinit hjob hle hpkt
  obtain rfl := Option.mem_unique hjob hholds.member
  have hid : c.rxJobID = j + 1 := congrArg Prod.fst hholds.buffers
  obtain ⟨m, hm⟩ := packetsIn_pos job hholds.begun
  have hoffset : n - position jobs j = m + 1 := hcount.symm.trans hm
  have hnew : job.addressesIn (packetsIn jobs (n + 1) j job) =
      job.addressesIn (packetsIn jobs n j job) ++
        pkt.words.take (min restJobPacketNumMbufAddr (c.nbPkts - c.nMbufAddrReceived)) := by
    rw [hcount', hoffset, HostJob.addressesIn_succ (hoffset ▸ hpkt), hholds.nbPkts,
      hholds.received, hm]
  have hnonzero : ∀ addr ∈ pkt.words.take
      (min restJobPacketNumMbufAddr (c.nbPkts - c.nMbufAddrReceived)), addr ≠ 0 := by
    rw [hholds.nbPkts, hholds.received, hm]
    exact HostJob.rest_nonzero (hoffset ▸ hpkt)
  obtain ⟨hsound, hdv, hdjob, hdnb, hdreceived, hdbuffers⟩ :=
    (h.sound c (mem_of_getElem? hc)).parseRest hvalid hmissing hnonzero hd
  have hbuffers : d.buffers = (j + 1, job.addressesIn (packetsIn jobs (n + 1) j job)) := by
    refine Prod.ext (hdjob.trans hid) (hdbuffers.trans ?_)
    rw [hholds.buffers, hnew]
  refine h.advance hp hle hpkt hsound hdv
    ⟨hjob, lt_succ_of_lt hholds.begun, hdnb.trans hholds.nbPkts, ?_, hbuffers⟩
    (fun _ => hid) ?_ ?_
  · rw [hdreceived, hnew, length_append, ← hholds.received]
  · -- another context of the job would wait as well
    intro j' e hne he hev hid'
    obtain ⟨i', other, hother⟩ := h.live e (mem_of_getElem? he) hev
    have hid'' : e.rxJobID = i' + 1 := congrArg Prod.fst hother.buffers
    obtain rfl : j = i' := Nat.succ.inj (hid'.symm.trans hid'')
    obtain rfl := Option.mem_unique hjob hother.member
    refine hne (hunique j' e he ((hother.inInitializationStage_iff hev).mpr ?_))
    rw [hcount]
    exact (List.getElem?_eq_some_iff.mp hpkt).1
  · intro j' other hother
    rw [hglobal, h.global j' other hother]
    refine ⟨lt_succ_of_lt, fun hbegun => ?_⟩
    by_cases heq : j' = j
    · exact heq ▸ hholds.begun
    · exact position_lt_of_ne hjob hle hpkt hother heq hbegun

theorem Tracks.global_eq (hjob : jobs[i]? = some job)
    (hfirst : position jobs i = n) : s.dta.globalRxJobID = i := by
  refine le_antisymm (not_lt.mp fun hlt => ?_) (not_lt.mp fun hlt => ?_)
  · have hbegun := (h.global i job hjob).mp hlt
    omega
  · have hlen := (List.getElem?_eq_some_iff.mp hjob).1
    have hget : jobs[s.dta.globalRxJobID]? = some (jobs[s.dta.globalRxJobID]) :=
      List.getElem?_eq_getElem (by omega)
    have hbegun := position_lt hget hlt
    exact lt_irrefl _ ((h.global _ _ hget).mpr (hfirst ▸ hbegun))

theorem Tracks.opened (hp : Parses s.dta dta pkt rest k c d)
    (hglobal : dta.globalRxJobID = s.dta.globalRxJobID + 1)
    (hstage : getInitializationStageRXContextID s.dta.contexts = .ok none) (hfree : c.valid = false)
    (hd : c.parseFirst (s.dta.globalRxJobID + 1) cacheLineSize pkt = .ok d) :
    Tracks jobs (n + 1) (s.after dta) := by
  obtain ⟨_, _, i, job, hjob, hle, hpkt⟩ := h.next hp.queue
  obtain ⟨_, hcount⟩ := packetsIn_own hle hpkt
  have hlt := (List.getElem?_eq_some_iff.mp hpkt).1
  have hfirst : position jobs i = n := by
    by_contra hne
    obtain ⟨e, he, hinit⟩ := h.context_of_begun hjob (by omega) (by omega)
    rw [getInitializationStage_none hstage e he] at hinit
    cases hinit
  have hbefore := h.global_eq hjob hfirst
  rw [hfirst, Nat.sub_self] at hcount
  obtain rfl : job.first = pkt := by
    rw [hfirst, Nat.sub_self] at hpkt
    exact Option.some.inj hpkt
  have hnew : job.addressesIn (packetsIn jobs (n + 1) i job) =
      (job.first.words.drop 2).take (min (job.first.word 1) rxFirstJobPacketNumMbufAddr) := by
    rw [hcount]
    exact HostJob.addressesIn_one
  obtain ⟨hsound, hdv, hdjob, hdnb, hdreceived, hdbuffers⟩ :=
    (h.sound c (mem_of_getElem? hp.context)).parseFirst hfree job.le_max HostJob.first_nonzero hd
  have hbuffers : d.buffers = (i + 1, job.addressesIn (packetsIn jobs (n + 1) i job)) :=
    Prod.ext (hdjob.trans (by rw [hbefore])) (hdbuffers.trans hnew.symm)
  refine h.advance hp hle hpkt hsound hdv
    ⟨hjob, by omega, hdnb, by rw [hdreceived, hbuffers], hbuffers⟩ ?_ ?_ ?_
  · intro hvalid
    rw [hfree] at hvalid
    cases hvalid
  · intro j' e _ he hev hid
    obtain ⟨i', other, hother⟩ := h.live e (mem_of_getElem? he) hev
    have hid' : e.rxJobID = i' + 1 := congrArg Prod.fst hother.buffers
    obtain rfl : i = i' := Nat.succ.inj (hid.symm.trans hid')
    have hbegun := hother.begun
    omega
  · intro j' other hother
    rw [hglobal, hbefore, Nat.lt_succ_iff]
    constructor
    · intro hle'
      exact lt_succ_of_le (hfirst ▸ position_mono hle')
    · intro hbegun
      by_contra hgt
      have hlater := position_lt hjob (not_le.mp hgt)
      omega

theorem Tracks.submit {data : PacketData} (hstage : InStage jobs s (.submit data))
    (ht : s.submit jobs data = .ok t) : Tracks jobs n t := by
  rcases submit_cases ht with rfl | ⟨pkt, hpkt, hroom, ⟨hinit, hlarge, _⟩ | ⟨_, _, _, rfl⟩⟩
  · exact h
  · -- the condition excludes that the packet is dropped
    exact absurd ((hstage pkt hpkt hroom).2 hinit) (Nat.not_le_of_lt hlarge)
  · have hlt := (List.getElem?_eq_some_iff.mp hpkt).1
    refine ⟨h.sound, le_succ_of_le h.parsed_le, hlt, ?_, h.global, h.live, h.ended, h.known⟩
    rw [h.queue, drop_take_succ h.parsed_le hpkt, (hstage pkt hpkt hroom).1]

theorem Tracks.step {a : HostAct} (ha : InStage jobs s a)
    (ht : s.step jobs cacheLineSize a = .ok t) : ∃ n, Tracks jobs n t := by
  rcases step_cases ht with ⟨_, rfl, ht⟩ | ⟨dta, rfl, hmove⟩
  · exact ⟨n, h.submit ha ht⟩
  · cases hmove with
    | kept hkept => exact ⟨n, h.kept hkept⟩
    | noPacket hact hfront hc hvalid hjob hzero hends =>
      subst hact
      exact ⟨n, h.ends hends hc (ha _ hfront _ hc hvalid hjob hzero)⟩
    | complete hc hd hstage hends =>
      exact ⟨n, h.ends hends hc ((h.sound _ (mem_of_getElem? hc)).not_inStage hd hstage)⟩
    | continued hp hstage hvalid hmissing hd hglobal =>
      exact ⟨n + 1, h.continued hp hglobal hstage hvalid hmissing hd⟩
    | opened hp hstage hfree hd hglobal => exact ⟨n + 1, h.opened hp hglobal hstage hfree hd⟩

theorem Tracks.noneLost : NoneLost jobs s := by
  intro hempty
  have hall : n = s.sent := by
    have hlen := congrArg List.length (h.queue.symm.trans hempty)
    rw [length_drop, length_take, length_nil] at hlen
    have hle := h.parsed_le
    have hsent := h.sent_le
    omega
  subst hall
  constructor
  · intro i job hjob hpos
    have hbegun : position jobs i < s.sent := by
      unfold packetsIn at hpos
      omega
    rcases h.known i job hjob hbegun with ⟨list, hmem⟩ | ⟨c, hc, hvalid, hid⟩
    · exact ⟨list, mem_append_left _ hmem⟩
    · refine ⟨c.buffers.2, mem_append_right _ (mem_map.mpr ⟨c, ?_, Prod.ext hid rfl⟩)⟩
      exact mem_filter.mpr ⟨hc, hvalid⟩
  · intro entry hentry
    rcases mem_append.mp hentry with hold | hlive
    · obtain ⟨i, job, hjob, hend, rfl⟩ := h.ended entry hold
      refine ⟨i, job, hjob, ?_⟩
      have hcount : packetsIn jobs s.sent i job = job.packets.length := by
        unfold packetsIn
        omega
      rw [hcount]
    · obtain ⟨c, hc, rfl⟩ := mem_map.mp hlive
      rw [mem_filter] at hc
      obtain ⟨i, job, hholds⟩ := h.live c hc.1 hc.2
      exact ⟨i, job, hholds.member, hholds.buffers⟩

end

end HostRun

/-- No packet of a job is lost in a run whose packets have static data and come in their
stage. -/
theorem job_packets_none_lost (jobs : List HostJob) (cacheLineSize numDTARXWorker : Nat)
    (s : HostRun)
    (hr : Reach (HostRun.step jobs cacheLineSize) (HostRun.InStage jobs)
      (.start numDTARXWorker) s) : s.NoneLost jobs := by
  have htracks : ∃ n, HostRun.Tracks jobs n s := by
    refine hr.invariant (P := fun s => ∃ n, HostRun.Tracks jobs n s)
      ⟨0, .start jobs numDTARXWorker⟩ ?_
    rintro s t a ⟨n, h⟩ ha ht
    exact h.step ha ht
  obtain ⟨n, h⟩ := htracks
  exact h.noneLost

def eightBuffers : HostJob where
  first := ⟨[0x1000, 8, 0x2000, 0x2800, 0x3000, 0x3800, 0x4000, 0x4800], rfl⟩
  rest := [⟨[0x5000, 0x5800, 0, 0, 0, 0, 0, 0], rfl⟩]
  one_le := by decide
  le_max := by decide
  rest_length := by decide
  nonzero := by decide

theorem job_packets_none_lost_eight_buffers :
    ∃ s : HostRun, s.NoneLost [eightBuffers] ∧ s.dta.rxJobSubmissionQueue = [] ∧
      s.lists = [(1, [0x2000, 0x2800, 0x3000, 0x3800, 0x4000, 0x4800, 0x5000, 0x5800])] := by
  obtain ⟨s, hr, hs⟩ := Reach.exists_of_runFrom (HostRun.step [eightBuffers] 64)
    (HostRun.InStage [eightBuffers]) (.start 1)
    [.submit .static, .checkSubmissionQueue false false, .submit .static,
      .checkSubmissionQueue false false]
    (fun s => s.dta.rxJobSubmissionQueue = [] ∧
      s.lists = [(1, [0x2000, 0x2800, 0x3000, 0x3800, 0x4000, 0x4800, 0x5000, 0x5800])])
    (by decide +kernel)
  exact ⟨s, job_packets_none_lost [eightBuffers] 64 1 s hr, hs⟩

/-- Sent right behind the first packet, it is dropped. -/
theorem continuation_packet_lost :
    ∃ s : HostRun, Reach (HostRun.step [eightBuffers] 64) (fun _ _ => True) (.start 1) s ∧
      s.sent = 2 ∧ ¬ s.NoneLost [eightBuffers] := by
  obtain ⟨s, hr, hsent, hempty, hlists⟩ :
      ∃ s, Reach (HostRun.step [eightBuffers] 64) (fun _ _ => True) (.start 1) s ∧ s.sent = 2 ∧
      s.dta.rxJobSubmissionQueue = [] ∧
      s.lists = [(1, [0x2000, 0x2800, 0x3000, 0x3800, 0x4000, 0x4800])] :=
    Reach.exists_of_run [.submit .static, .submit .static, .checkSubmissionQueue false false]
      (by decide +kernel)
  refine ⟨s, hr, hsent, fun hnone => ?_⟩
  obtain ⟨i, job, hjob, hentry⟩ := (hnone hempty).2 _ (hlists ▸ mem_singleton.mpr rfl)
  obtain rfl : 0 = i := Nat.succ.inj (congrArg Prod.fst hentry)
  obtain rfl : eightBuffers = job := Option.some.inj hjob
  rw [hsent] at hentry
  revert hentry
  decide

end Gem5.DTA
