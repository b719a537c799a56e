import Gem5.DTA.RxEntry
import Gem5.DTA.RxSteps

/-!
# The requests of a job

How many read requests the job in front has, and how many it may have. The device
answers them with the flits of its packets, in order. A header counts a packet when it
arrives, but the flits that it announces are counted only when a worker takes it.

`RxJobRun` follows one job, `job`, from the time it comes to the front: `inNIC` are the
requests at the device, of this job and of others; `left` are the flits that the device
still has for it; `issued` counts its requests and is never read.
-/

namespace Gem5.DTA

open Option Bool

open List hiding count

open IGbE Cells RxM2func

section Stream

variable {flits given left : List (List UInt8 × Bool)} {entries : List (List UInt8)}
  {entry : List UInt8}

def headers (flits : List (List UInt8 × Bool)) : Nat := flits.countP fun f => f.2

def continuations (flits : List (List UInt8 × Bool)) : Nat := flits.countP fun f => !f.2

def announced (flits : List (List UInt8 × Bool)) : Nat :=
  (flits.map fun f => if f.2 then RxSide.announcedBy f.1 else 0).sum

@[simp] theorem headers_append (a b : List (List UInt8 × Bool)) :
    headers (a ++ b) = headers a + headers b := countP_append

@[simp] theorem continuations_append (a b : List (List UInt8 × Bool)) :
    continuations (a ++ b) = continuations a + continuations b := countP_append

@[simp] theorem announced_append (a b : List (List UInt8 × Bool)) :
    announced (a ++ b) = announced a + announced b := by
  simp [announced]

theorem announced_singleton (f : List UInt8 × Bool) :
    announced [f] = if f.2 then RxSide.announcedBy f.1 else 0 := by
  rw [announced, map_singleton, sum_singleton]

theorem headers_add_continuations (flits : List (List UInt8 × Bool)) :
    headers flits + continuations flits = flits.length := by
  have hsplit := length_eq_countP_add_countP (fun f : List UInt8 × Bool => f.2) (l := flits)
  simp only [not_eq_true] at hsplit
  rw [hsplit, headers, continuations]
  congr 2
  funext f
  cases f.2 <;> rfl

theorem later_flits (h : ∀ f ∈ flits, f.2 = false) :
    headers flits = 0 ∧ continuations flits = flits.length ∧ announced flits = 0 := by
  refine ⟨?_, ?_, ?_⟩
  · exact List.countP_eq_zero.mpr fun f hf => by simp [h f hf]
  · exact List.countP_eq_length.mpr fun f hf => by simp [h f hf]
  · rw [announced, sum_eq_zero]
    intro n hn
    obtain ⟨f, hf, rfl⟩ := List.mem_map.mp hn
    simp [h f hf]

structure Announces (entry : List UInt8) : Prop where
  pos : 0 < count 64 entry
  first : RxSide.announcedBy (cell 64 entry 0) = count 64 entry - 1

theorem EntryOf.announces {packet : EthPacket} (he : EntryOf packet entry)
    (hlt : packet.length < 2 ^ 16) : Announces entry := by
  refine ⟨he.count_pos, ?_⟩
  have hlen := he.cell_length he.count_pos
  have htake : (cell 64 entry 0).take rxDescriptorSize = entry.take 16 := by
    rw [cell, Nat.zero_mul, drop_zero, take_take]
    rfl
  rw [RxSide.announcedBy, htake, hlen, he.pktLen]
  exact he.extraCxlReq_eq hlt

theorem marked_eq_cons (h : Announces entry) : ∃ rest,
    marked 64 entry = (cell 64 entry 0, true) :: rest ∧ rest.length = count 64 entry - 1 ∧
      ∀ f ∈ rest, f.2 = false := by
  obtain ⟨n, hn⟩ : ∃ n, count 64 entry = n + 1 := ⟨count 64 entry - 1, by have := h.pos; omega⟩
  refine ⟨(List.range n).map fun i => (cell 64 entry (i + 1), false), ?_, ?_, ?_⟩
  · simp [marked, hn, range_succ_eq_map]
  · simp [hn]
  · intro f hf
    obtain ⟨i, _, rfl⟩ := List.mem_map.mp hf
    rfl

theorem balance_entry (h : Announces entry) {f : List UInt8 × Bool}
    {more : List (List UInt8 × Bool)} (hsplit : marked 64 entry = given ++ f :: more) :
    (given = [] ∧ f.2 = true) ∨ (headers given = 1 ∧ announced given = count 64 entry - 1 ∧
        continuations given < count 64 entry - 1 ∧ f.2 = false) := by
  obtain ⟨rest, hcons, hlen, hlater⟩ := marked_eq_cons h
  rw [hcons] at hsplit
  cases given with
  | nil =>
    obtain ⟨rfl, _⟩ := List.cons.inj hsplit
    exact .inl ⟨rfl, rfl⟩
  | cons g gs =>
    rw [cons_append] at hsplit
    obtain ⟨rfl, rfl⟩ := List.cons.inj hsplit
    have hgs : ∀ x ∈ gs, x.2 = false := fun x hx => hlater x (mem_append_left _ hx)
    obtain ⟨hheaders, hconts, hannounced⟩ := later_flits hgs
    refine .inr ⟨?_, ?_, ?_, hlater f (mem_append_right gs mem_cons_self)⟩
    · simpa [headers] using hheaders
    · simpa [announced, h.first] using hannounced
    · rw [length_append, length_cons] at hlen
      have hgs : continuations ((cell 64 entry 0, true) :: gs) = gs.length := by
        simpa [continuations] using hconts
      omega

theorem whole_entry (h : Announces entry) : headers (marked 64 entry) = 1 ∧
    announced (marked 64 entry) = count 64 entry - 1 ∧
    continuations (marked 64 entry) = count 64 entry - 1 := by
  obtain ⟨rest, hcons, hlen, hlater⟩ := marked_eq_cons h
  obtain ⟨hheaders, hconts, hannounced⟩ := later_flits hlater
  rw [hcons]
  refine ⟨?_, ?_, ?_⟩
  · simpa [headers] using hheaders
  · simpa [announced, h.first] using hannounced
  · rw [← hlen, ← hconts]
    simp [continuations]

theorem balance : ∀ {entries : List (List UInt8)} {given left : List (List UInt8 × Bool)},
    (∀ e ∈ entries, Announces e) → given ++ left = entries.flatMap (marked 64) →
    announced given = ((entries.take (headers given)).map fun e => count 64 e - 1).sum ∧
      continuations given ≤ announced given ∧
      ∀ f more, left = f :: more → (f.2 = true → continuations given = announced given) ∧
        (f.2 = false → continuations given < announced given) := by
  intro entries
  induction entries with
  | nil =>
    intro given left _ hsplit
    obtain ⟨rfl, rfl⟩ := List.append_eq_nil_iff.mp hsplit
    exact ⟨rfl, le_rfl, fun f more h => by cases h⟩
  | cons e rest ih =>
    intro given left hall hsplit
    have he := hall e mem_cons_self
    have hrest : ∀ x ∈ rest, Announces x := fun x hx => hall x (mem_cons_of_mem e hx)
    obtain ⟨hheaders, hannounced, hconts⟩ := whole_entry he
    rw [flatMap_cons] at hsplit
    -- the entry is over, or the next flit is one of it
    have hcase : (∃ c, given = marked 64 e ++ c ∧ c ++ left = rest.flatMap (marked 64)) ∨
        ∃ f more, marked 64 e = given ++ f :: more ∧
        left = f :: (more ++ rest.flatMap (marked 64)) := by
      rcases List.append_eq_append_iff.mp hsplit with ⟨c, hc, hleft⟩ | ⟨c, hc, hleft⟩
      · cases c with
        | nil => exact .inl ⟨[], by simpa using hc.symm, hleft⟩
        | cons f more => exact .inr ⟨f, more, hc, hleft⟩
      · exact .inl ⟨c, hc, hleft.symm⟩
    rcases hcase with ⟨c, rfl, hc⟩ | ⟨f, more, hmarked, hleft⟩
    · obtain ⟨hsum, hle, hnext⟩ := ih hrest hc
      simp only [headers_append, continuations_append, announced_append, hheaders, hannounced,
        hconts]
      refine ⟨?_, by omega, ?_⟩
      · rw [hsum, add_comm 1, take_succ_cons, map_cons, sum_cons]
      · intro f more hf
        obtain ⟨hhead, hlater⟩ := hnext f more hf
        exact ⟨fun h => by rw [hhead h], fun h => by have := hlater h; omega⟩
    · rcases balance_entry he hmarked with ⟨rfl, hf⟩ | ⟨h1, h2, h3, hf⟩
      · refine ⟨rfl, le_rfl, ?_⟩
        intro f' more' hcons
        obtain ⟨rfl, _⟩ := List.cons.inj (hleft.symm.trans hcons)
        exact ⟨fun _ => rfl, fun h => absurd (hf.symm.trans h) (by decide)⟩
      · rw [h1, h2]
        refine ⟨by simp, le_of_lt h3, ?_⟩
        intro f' more' hcons
        obtain ⟨rfl, _⟩ := List.cons.inj (hleft.symm.trans hcons)
        exact ⟨fun h => absurd (hf.symm.trans h) (by decide), fun _ => h3⟩

end Stream

structure RxJobRun where
  dta : RxSide
  inNIC : List CxlPacket
  left : List (List UInt8 × Bool)
  issued : Nat

/-- `respond` carries what the device answers if the front request is of another job. -/
inductive RxJobAct where
  | job (data : PacketData) (pkt : JobPacket)
  | checkSubmissionQueue (canScheduleTXJob found : Bool)
  | transmit
  | sendRequestToNIC (accepts : Bool)
  | recvReqRetry (accepts : Bool)
  | respond (data : List UInt8) (ddioHeader : Bool)
  | noPacket
  | allocateWorkerFromQueue
  | dtaRXStateMachine
  | ioCacheDone (k : Nat)

def reads (job : Nat) (queue : List DtaRequest) : Nat :=
  queue.countP fun
    | .read pkt => pkt.jobID == job
    | .write => false

namespace RxJobRun

def outstanding (job : Nat) (s : RxJobRun) : Nat :=
  reads job s.dta.cxlReqQueue + s.inNIC.countP fun pkt => pkt.jobID == job

def requested (job : Nat) (sent : Option CxlPacket) (dta : RxSide) (s : RxJobRun) : RxJobRun where
  dta := dta
  inNIC := s.inNIC ++ sent.toList
  left := s.left
  issued := s.issued + (sent.toList.countP (fun pkt => pkt.jobID == job) +
    reads job dta.cxlReqQueue - reads job s.dta.cxlReqQueue)

def respond (job : Nat) (data : List UInt8) (ddioHeader : Bool) (s : RxJobRun) : Sim RxJobRun :=
  match s.inNIC with
  | [] => pure s
  | pkt :: rest =>
    if pkt.jobID = job then
      match s.left with
      | [] => pure s
      | f :: more => do
        let dta ← s.dta.recvTimingRespfromNIC { pkt with data := f.1, ddioHeader := f.2 }
        pure { s with dta := dta, inNIC := rest, left := more }
    else do
      let dta ← s.dta.recvTimingRespfromNIC { pkt with data := data, ddioHeader := ddioHeader }
      pure { s with dta := dta, inNIC := rest }

def noPacket (s : RxJobRun) : Sim RxJobRun :=
  match s.inNIC with
  | [] => pure s
  | pkt :: rest => do
    let dta ← s.dta.recvTimingRespfromNIC { pkt with data := List.replicate 64 0 }
    pure { s with dta := dta, inNIC := rest }

def step (job cacheLineSize : Nat) (s : RxJobRun) : RxJobAct → Sim RxJobRun
  | .job data pkt => do
    let (_, dta) ← s.dta.recvTimingReq data pkt
    pure { s with dta := dta }
  | .checkSubmissionQueue canScheduleTXJob found => do
    let dta ← s.dta.checkSubmissionQueue cacheLineSize canScheduleTXJob found
    pure { s with dta := dta }
  | .transmit => pure { s with dta := { s.dta with cxlReqQueue := s.dta.cxlReqQueue ++ [.write] } }
  | .sendRequestToNIC accepts => do
    let (sent, dta) ← s.dta.sendRequestToNIC accepts
    pure (s.requested job sent dta)
  | .recvReqRetry accepts => do
    let (sent, dta) ← s.dta.recvReqRetry accepts
    pure (s.requested job sent dta)
  | .respond data ddioHeader => s.respond job data ddioHeader
  | .noPacket => s.noPacket
  | .allocateWorkerFromQueue =>
    match s.dta.rxContextIDQueue with
    | [] => pure s
    | i :: _ => do
      let dta ← s.dta.allocateWorkerFromQueue cacheLineSize i
      pure { s with dta := dta }
  | .dtaRXStateMachine => do
    let dta ← s.dta.dtaRXStateMachine cacheLineSize
    pure { s with dta := dta }
  | .ioCacheDone k => do
    let dta ← s.dta.ioCacheDone k
    pure { s with dta := dta }

structure Starts (job : Nat) (entries : List (List UInt8)) (s : RxJobRun) : Prop where
  front : ∃ (i : Nat) (c : DTARXContext), s.dta.rxContextIDQueue.head? = some i ∧
    s.dta.contexts[i]? = some c ∧
    c.valid = true ∧ c.rxJobID = job ∧ c.nRecv = 0 ∧ c.numFreeRequestInNIC = 0 ∧
    c.nExtraCxlReqNeeded = 0 ∧ c.nExtraCxlReqReceived = 0 ∧ c.nMbufAddrReceived ≤ c.nbPkts ∧
    ∀ (k : Nat) (d : DTARXContext), k ≠ i → s.dta.contexts[k]? = some d → d.valid = true →
      d.rxJobID ≠ job
  known : job ≤ s.dta.globalRxJobID
  none : s.outstanding job = 0
  idle : s.dta.workerWaitingQueue = []
  left : s.left = entries.flatMap (marked 64)
  issued : s.issued = 0

def Accounts (job : Nat) (entries : List (List UInt8)) (s : RxJobRun) : Prop :=
  ∀ (i : Nat) (c : DTARXContext), s.dta.contexts[i]? = some c → c.valid = true → c.rxJobID = job →
    (∃ more, c.checkThreshold = .ok more) ∧ c.nExtraCxlReqReceived ≤ c.nExtraCxlReqNeeded ∧
      c.nRecv ≤ c.nMbufAddrReceived ∧ c.numFreeRequestInNIC = s.outstanding job ∧
      s.issued ≤ ((entries.take c.nbPkts).map (count 64)).sum + (c.nbPkts - entries.length)

def Spaced (job : Nat) (s : RxJobRun) : RxJobAct → Prop
  | .respond _ _ => ∀ pkt ∈ s.inNIC.head?, pkt.jobID = job → ∀ f ∈ s.left.head?, f.2 = false →
      ∀ x ∈ s.dta.workerWaitingQueue, x.1.ddioHeader = false
  | _ => True

section Invariant

variable {job cacheLineSize : Nat} {entries : List (List UInt8)} {s t : RxJobRun} {dta : RxSide}
  {i k : Nat} {c d e : DTARXContext} {contexts : List DTARXContext}
  {taken taken' given left : List (List UInt8 × Bool)}

def waiting (dta : RxSide) : List (List UInt8 × Bool) :=
  dta.workerWaitingQueue.map fun x => (x.1.data, x.1.ddioHeader)

/-- No context has the job. -/
def Absent (job : Nat) (contexts : List DTARXContext) : Prop :=
  ∀ d ∈ contexts, d.valid = true → d.rxJobID ≠ job

/-- The account in context `c` of the flits `given`, of which workers have taken `taken`, and of
the `out` requests that are not answered. -/
structure Books (entries : List (List UInt8)) (c : DTARXContext)
    (taken given left : List (List UInt8 × Bool)) (out issued : Nat) : Prop where
  stream : given ++ left = entries.flatMap (marked 64)
  nRecv : c.nRecv = headers given
  received : c.nExtraCxlReqReceived = continuations given
  needed : c.nExtraCxlReqNeeded = announced taken
  enough : c.nExtraCxlReqReceived ≤ c.nExtraCxlReqNeeded
  room : c.nRecv ≤ c.nMbufAddrReceived
  buffers : c.nMbufAddrReceived ≤ c.nbPkts
  free : c.numFreeRequestInNIC = out
  limit : c.numFreeRequestInNIC ≤ (c.nMbufAddrReceived - c.nRecv) +
    (c.nExtraCxlReqNeeded - c.nExtraCxlReqReceived)
  issued : issued = c.numFreeRequestInNIC + given.length

/-- The job is in front, with context `c` at `i`. -/
structure Alive (job : Nat) (entries : List (List UInt8)) (s : RxJobRun) (i : Nat)
    (c : DTARXContext) (taken : List (List UInt8 × Bool)) : Prop where
  front : s.dta.rxContextIDQueue.head? = some i
  context : s.dta.contexts[i]? = some c
  valid : c.valid = true
  jobID : c.rxJobID = job
  others : Absent job (s.dta.contexts.set i DTARXContext.clear)
  known : job ≤ s.dta.globalRxJobID
  books : Books entries c taken (taken ++ waiting s.dta) s.left (s.outstanding job) s.issued

structure Gone (job : Nat) (dta : RxSide) : Prop where
  none : Absent job dta.contexts
  known : job ≤ dta.globalRxJobID

structure Continues (c d : DTARXContext) : Prop where
  job : d.rxJobID = c.rxJobID
  valid : d.valid = c.valid
  nRecv : d.nRecv = c.nRecv
  free : d.numFreeRequestInNIC = c.numFreeRequestInNIC
  needed : d.nExtraCxlReqNeeded = c.nExtraCxlReqNeeded
  received : d.nExtraCxlReqReceived = c.nExtraCxlReqReceived
  more : c.nMbufAddrReceived ≤ d.nMbufAddrReceived
  buffers : c.nMbufAddrReceived ≤ c.nbPkts → d.nMbufAddrReceived ≤ d.nbPkts

theorem Continues.of_account (h : RxSide.account d = RxSide.account c) : Continues c d := by
  simp only [RxSide.account, Prod.mk.injEq] at h
  obtain ⟨hjob, hvalid, hnb, hrecv, hfree, hmbuf, hneeded, hreceived⟩ := h
  exact ⟨hjob, hvalid, hrecv, hfree, hneeded, hreceived, hmbuf.ge, fun h => by omega⟩

theorem Absent.set (h : Absent job contexts) (hd : d.valid = true → d.rxJobID ≠ job) :
    Absent job (contexts.set k d) := by
  intro e he hvalid
  rcases mem_or_eq_of_mem_set he with he | rfl
  · exact h e he hvalid
  · exact hd hvalid

theorem Gone.frame (h : Gone job s.dta) (hc : dta.contexts = s.dta.contexts)
    (hg : s.dta.globalRxJobID ≤ dta.globalRxJobID) : Gone job dta :=
  ⟨hc ▸ h.none, h.known.trans hg⟩

theorem Gone.set (h : Gone job s.dta) (hk : s.dta.contexts[k]? = some e)
    (hc : dta.contexts = s.dta.contexts.set k d)
    (hd : d.valid = true → d.rxJobID = e.rxJobID ∧ e.valid = true)
    (hg : s.dta.globalRxJobID ≤ dta.globalRxJobID) :
    Gone job dta := by
  refine ⟨hc ▸ h.none.set fun hv => ?_, h.known.trans hg⟩
  rw [(hd hv).1]
  exact h.none e (mem_of_getElem? hk) (hd hv).2

section

variable (h : Alive job entries s i c taken)
include h

theorem Alive.frame (hc : t.dta.contexts = s.dta.contexts)
    (hq : t.dta.rxContextIDQueue.head? = s.dta.rxContextIDQueue.head?)
    (hg : s.dta.globalRxJobID ≤ t.dta.globalRxJobID)
    (hb : Books entries c taken' (taken' ++ waiting t.dta) t.left (t.outstanding job) t.issued) :
    Alive job entries t i c taken' :=
  ⟨hq.trans h.front, hc ▸ h.context, h.valid, h.jobID, hc ▸ h.others, h.known.trans hg, hb⟩

theorem Alive.update (hc : t.dta.contexts = s.dta.contexts.set i d)
    (hq : t.dta.rxContextIDQueue.head? = s.dta.rxContextIDQueue.head?)
    (hg : s.dta.globalRxJobID ≤ t.dta.globalRxJobID)
    (hd : d.valid = c.valid ∧ d.rxJobID = c.rxJobID)
    (hb : Books entries d taken' (taken' ++ waiting t.dta) t.left (t.outstanding job) t.issued) :
    Alive job entries t i d taken' where
  front := hq.trans h.front
  context := by
    rw [hc]
    exact List.getElem?_set_self (List.getElem?_eq_some_iff.mp h.context).1
  valid := hd.1.trans h.valid
  jobID := hd.2.trans h.jobID
  others := by
    rw [hc, set_set]
    exact h.others
  known := h.known.trans hg
  books := hb

theorem Alive.set_context (hk : s.dta.contexts[k]? = some e) (hd : Continues e d) :
    ∃ c', Alive job entries { s with dta := s.dta.setContext k d } i c' taken := by
  by_cases hki : k = i
  · subst hki
    obtain rfl := mem_unique hk h.context
    obtain ⟨hstream, hrecv, hreceived, hneeded, henough, hroom, hbuffers, hfree, hlimit, hissued⟩ :=
      h.books
    have hmore := hd.more
    refine ⟨d, h.update rfl rfl le_rfl ⟨hd.valid, hd.job⟩ ⟨hstream, hd.nRecv.trans hrecv,
      hd.received.trans hreceived, hd.needed.trans hneeded, ?_, ?_, hd.buffers hbuffers,
      hd.free.trans hfree, ?_, ?_⟩⟩
    · rwa [hd.received, hd.needed]
    · rw [hd.nRecv]
      exact hroom.trans hmore
    · rw [hd.free, hd.nRecv, hd.needed, hd.received]
      omega
    · rw [hd.free]
      exact hissued
  · refine ⟨c, h.front, (List.getElem?_set_ne hki).trans h.context, h.valid, h.jobID, ?_, h.known,
      h.books⟩
    show Absent job ((s.dta.contexts.set k d).set i DTARXContext.clear)
    rw [set_comm _ _ hki]
    refine h.others.set fun hv => ?_
    rw [hd.job]
    refine h.others e (mem_iff_getElem?.mpr ⟨k, ?_⟩) (hd.valid ▸ hv)
    rw [List.getElem?_set_ne (Ne.symm hki), hk]

theorem Alive.requestMore (hs : s.dta.requestMore = .ok dta) : ∃ c', Alive job entries
      { s with
        dta := dta
        issued := s.issued + (reads job dta.cxlReqQueue - reads job s.dta.cxlReqQueue) }
      i c' taken := by
  rcases RxSide.requestMore_cases hs with ⟨n, rfl, _⟩ | ⟨k, rest, e, hqueue, he, hmore, rfl⟩
  · refine ⟨c, ?_⟩
    simp only [Nat.sub_self]
    exact h.frame rfl rfl le_rfl h.books
  · have hfront := h.front
    rw [hqueue] at hfront
    obtain rfl : k = i := Option.some.inj hfront
    obtain rfl := mem_unique he h.context
    obtain ⟨_, _, _, hlimit⟩ := RxSide.checkThreshold_true hmore
    have hreads : reads job (s.dta.cxlReqQueue ++ [.read (s.dta.createDTARequest e)]) =
        reads job s.dta.cxlReqQueue + 1 := by
      simp [reads, RxSide.createDTARequest, h.jobID]
    have hissued := h.books.issued
    refine ⟨_,
      h.update rfl rfl le_rfl ⟨rfl, rfl⟩ { h.books with free := ?_, limit := hlimit, issued := ?_ }⟩
    · simp only [outstanding, h.books.free]
      omega
    · simp only [hreads]
      change s.issued + _ = e.numFreeRequestInNIC + 1 + (taken ++ waiting s.dta).length
      omega

theorem Alive.sendFront {accepts : Bool} {sent : Option CxlPacket}
    (hs : s.dta.sendFront accepts = .ok (sent, dta)) :
    Alive job entries { s with dta := dta, inNIC := s.inNIC ++ sent.toList } i c taken ∧
      sent.toList.countP (fun pkt => pkt.jobID == job) + reads job dta.cxlReqQueue =
        reads job s.dta.cxlReqQueue := by
  obtain ⟨rfl, waits, rfl⟩ | ⟨rest, hqueue, rfl, rfl⟩ | ⟨pkt, rest, hqueue, rfl, _, _, rfl⟩ :=
    RxSide.sendFront_cases hs
  · refine ⟨?_, by simp⟩
    simp only [toList_none, append_nil]
    exact h.frame rfl rfl le_rfl h.books
  · have hreads : reads job rest = reads job s.dta.cxlReqQueue := by simp [reads, hqueue]
    refine ⟨h.frame rfl rfl le_rfl { h.books with free := ?_ }, by simp [hreads]⟩
    simp only [outstanding, hreads, toList_none, append_nil]
    exact h.books.free
  · have hreads : [pkt].countP (fun pkt => pkt.jobID == job) + reads job rest =
        reads job s.dta.cxlReqQueue := by
      simp only [reads, hqueue, countP_cons, countP_nil]
      omega
    refine ⟨h.frame rfl rfl le_rfl { h.books with free := ?_ }, hreads⟩
    rw [h.books.free]
    simp only [outstanding, toList_some, countP_append]
    omega

theorem Alive.sendRequestToNIC {accepts : Bool} {sent : Option CxlPacket}
    (hs : s.dta.sendRequestToNIC accepts = .ok (sent, dta)) :
    ∃ c', Alive job entries (s.requested job sent dta) i c' taken := by
  obtain ⟨⟨front, u⟩, hfront, hs⟩ := bind_eq_ok.mp hs
  obtain ⟨v, hv, hs⟩ := bind_eq_ok.mp hs
  cases hs
  obtain ⟨hsent, hreads⟩ := h.sendFront hfront
  obtain ⟨c', hmore⟩ := hsent.requestMore hv
  refine ⟨c', ?_⟩
  unfold requested
  rwa [← hreads, Nat.add_sub_add_left]

end

def counted (c : DTARXContext) (f : List UInt8 × Bool) : DTARXContext :=
  { RxSide.answered c with
    nRecv := c.nRecv + headers [f]
    nExtraCxlReqReceived := c.nExtraCxlReqReceived + continuations [f] }

theorem countResponse_answered (c : DTARXContext) (f : List UInt8 × Bool) :
    (RxSide.answered c).countResponse f.2 = counted c f := by
  obtain ⟨data, mark⟩ := f
  cases mark <;> rfl

variable {f : List UInt8 × Bool}

section

variable {more : List (List UInt8 × Bool)} (hentries : ∀ e ∈ entries, Announces e)
  (h : Alive job entries s i c taken) (hleft : s.left = f :: more)
  (hspaced : f.2 = false → ∀ x ∈ s.dta.workerWaitingQueue, x.1.ddioHeader = false)
include hentries h hleft hspaced

theorem Alive.next :
    (headers [f] = 1 ∧ continuations [f] = 0 ∧ c.nExtraCxlReqReceived = c.nExtraCxlReqNeeded) ∨
      (headers [f] = 0 ∧ continuations [f] = 1 ∧
        c.nExtraCxlReqReceived < c.nExtraCxlReqNeeded) := by
  obtain ⟨_, _, hnext⟩ := balance hentries h.books.stream
  obtain ⟨hheader, hlater⟩ := hnext f more hleft
  rw [announced_append, ← h.books.received, ← h.books.needed] at hheader hlater
  have henough := h.books.enough
  obtain ⟨data, mark⟩ := f
  cases mark with
  | true =>
    have hequal := hheader rfl
    exact .inl ⟨rfl, rfl, by omega⟩
  | false =>
    have hnone : announced (waiting s.dta) = 0 := by
      refine (later_flits ?_).2.2
      intro x hx
      obtain ⟨y, hy, rfl⟩ := List.mem_map.mp hx
      exact hspaced rfl y hy
    have hless := hlater rfl
    exact .inr ⟨rfl, rfl, by omega⟩

theorem Alive.takeResponse {pkt : CxlPacket} {rest : List CxlPacket} (hnic : s.inNIC = pkt :: rest)
    (hpkt : pkt.jobID = job) (hcontexts : dta.contexts = s.dta.contexts.set i (counted c f))
    (hqueue : dta.rxContextIDQueue = s.dta.rxContextIDQueue)
    (hcxl : dta.cxlReqQueue = s.dta.cxlReqQueue) (hwait : waiting dta = waiting s.dta ++ [f])
    (hglobal : dta.globalRxJobID = s.dta.globalRxJobID) :
    Alive job entries { s with dta := dta, inNIC := rest, left := more } i (counted c f) taken := by
  have hnext := h.next hentries hleft hspaced
  have hout : s.outstanding job = reads job s.dta.cxlReqQueue +
      (rest.countP (fun pkt => pkt.jobID == job) + 1) := by
    simp [outstanding, hnic, hpkt]
  obtain ⟨hstream, hrecv, hreceived, hneeded, henough, hroom, hbuffers, hfree, hlimit, hissued⟩ :=
    h.books
  have hdec : DTARXContext.decrement c.numFreeRequestInNIC = c.numFreeRequestInNIC - 1 :=
    if_neg (by omega)
  refine h.update hcontexts (by rw [hqueue]) hglobal.ge ⟨rfl, rfl⟩ ?_
  show Books entries (counted c f) taken (taken ++ waiting dta) more
    (reads job dta.cxlReqQueue + rest.countP fun pkt => pkt.jobID == job) s.issued
  rw [hwait, hcxl, ← append_assoc]
  refine ⟨?_, ?_, ?_, hneeded, ?_, ?_, hbuffers, hdec.trans (by omega), ?_, ?_⟩
  · rw [append_assoc, singleton_append, ← hleft, hstream]
  · rw [headers_append, ← hrecv]
    rfl
  · rw [continuations_append, ← hreceived]
    rfl
  · change c.nExtraCxlReqReceived + continuations [f] ≤ c.nExtraCxlReqNeeded
    omega
  · change c.nRecv + headers [f] ≤ c.nMbufAddrReceived
    omega
  · change DTARXContext.decrement c.numFreeRequestInNIC ≤
      (c.nMbufAddrReceived - (c.nRecv + headers [f])) +
        (c.nExtraCxlReqNeeded - (c.nExtraCxlReqReceived + continuations [f]))
    omega
  · change s.issued = DTARXContext.decrement c.numFreeRequestInNIC + _
    rw [length_append, length_singleton]
    omega

end

variable {pkt : CxlPacket}

theorem Alive.allocateWorkerFromQueue (h : Alive job entries s i c taken)
    (hs : s.dta.allocateWorkerFromQueue cacheLineSize i = .ok dta) :
    ∃ c' taken', Alive job entries { s with dta := dta } i c' taken' := by
  obtain rfl | ⟨pkt, nRecv, rest, e, workers, hqueue, he, hcase⟩ :=
    RxSide.allocateWorkerFromQueue_cases hs
  · exact ⟨c, taken, h⟩
  · obtain rfl := mem_unique he h.context
    have hb := h.books
    rw [show waiting s.dta = [(pkt.data, pkt.ddioHeader)] ++
        rest.map fun x => (x.1.data, x.1.ddioHeader) by simp [waiting, hqueue],
      ← append_assoc] at hb
    have henough := hb.enough
    have hlimit := hb.limit
    rcases hcase with ⟨hheader, last, map, rfl⟩ | ⟨hheader, rfl⟩
    · have hmore : announced (taken ++ [(pkt.data, pkt.ddioHeader)]) =
          announced taken + RxSide.announcedBy pkt.data := by
        rw [announced_append, announced_singleton, if_pos hheader]
      -- the number is left abstract: its bytes must not be decoded below
      generalize RxSide.announcedBy pkt.data = more at hmore ⊢
      refine ⟨_, taken ++ [(pkt.data, pkt.ddioHeader)], h.update rfl rfl le_rfl ⟨rfl, rfl⟩
        { hb with needed := ?_, enough := ?_, limit := ?_ }⟩
      · rw [hmore, ← hb.needed]
      · exact le_trans henough (Nat.le_add_right _ _)
      · change e.numFreeRequestInNIC ≤ (e.nMbufAddrReceived - e.nRecv) +
          (e.nExtraCxlReqNeeded + more - e.nExtraCxlReqReceived)
        omega
    · refine ⟨e, taken ++ [(pkt.data, pkt.ddioHeader)],
        h.frame rfl rfl le_rfl { hb with needed := ?_ }⟩
      rw [announced_append, announced_singleton, if_neg (eq_false_iff.mp hheader), hb.needed,
        add_zero]

theorem Gone.allocateWorkerFromQueue (h : Gone job s.dta)
    (hs : s.dta.allocateWorkerFromQueue cacheLineSize k = .ok dta) : Gone job dta := by
  obtain rfl | ⟨pkt, nRecv, rest, e, workers, _, he, ⟨_, last, map, rfl⟩ | ⟨_, rfl⟩⟩ :=
    RxSide.allocateWorkerFromQueue_cases hs
  · exact h
  · exact h.set he rfl (fun hv => ⟨rfl, hv⟩) le_rfl
  · exact h.frame rfl le_rfl

def Tracks (job : Nat) (entries : List (List UInt8)) (s : RxJobRun) : Prop :=
  Gone job s.dta ∨ ∃ i c taken, Alive job entries s i c taken

section

variable (h : Tracks job entries s)
include h

theorem Tracks.allocateWorkerFromQueue
    (hfront : ∀ j, s.dta.rxContextIDQueue.head? = some j → j = k ∨ Gone job s.dta)
    (hs : s.dta.allocateWorkerFromQueue cacheLineSize k = .ok dta) :
    Tracks job entries { s with dta := dta } := by
  rcases h with h | ⟨i, c, taken, h⟩
  · exact .inl (h.allocateWorkerFromQueue hs)
  · rcases hfront i h.front with rfl | hgone
    · obtain ⟨c', taken', halive⟩ := h.allocateWorkerFromQueue hs
      exact .inr ⟨i, c', taken', halive⟩
    · exact .inl (hgone.allocateWorkerFromQueue hs)

theorem Tracks.set_context (hk : s.dta.contexts[k]? = some e) (hd : Continues e d) :
    Tracks job entries { s with dta := s.dta.setContext k d } := by
  rcases h with h | ⟨i, c, taken, h⟩
  · exact .inl (h.set hk rfl (fun hv => ⟨hd.job, hd.valid ▸ hv⟩) le_rfl)
  · obtain ⟨c', halive⟩ := h.set_context hk hd
    exact .inr ⟨i, c', taken, halive⟩

theorem Tracks.frame (hc : dta.contexts = s.dta.contexts)
    (hq : dta.rxContextIDQueue.head? = s.dta.rxContextIDQueue.head?)
    (hr : reads job dta.cxlReqQueue = reads job s.dta.cxlReqQueue)
    (hw : dta.workerWaitingQueue = s.dta.workerWaitingQueue)
    (hg : s.dta.globalRxJobID ≤ dta.globalRxJobID) : Tracks job entries { s with dta := dta } := by
  rcases h with h | ⟨i, c, taken, h⟩
  · exact .inl (h.frame hc hg)
  · refine .inr ⟨i, c, taken, h.frame hc hq hg ?_⟩
    simp only [waiting, outstanding, hw, hr]
    exact h.books

theorem Tracks.openContext {pkt : JobPacket} (hk : s.dta.contexts[k]? = some e)
    (he : e.valid = false) (hs : s.dta.openContext cacheLineSize k pkt e = .ok dta) :
    Tracks job entries { s with dta := dta } := by
  obtain ⟨d, hd, rfl⟩ := map_eq_ok.mp hs
  have hnew : d.rxJobID = s.dta.globalRxJobID + 1 := by
    obtain ⟨mbufAddr, written, rfl⟩ := RxSide.storeMbufAddrs_cases hd
    rfl
  rcases h with h | ⟨i, c, taken, h⟩
  · have hknown := h.known
    exact .inl ⟨h.none.set fun _ => by omega, Nat.le_succ_of_le hknown⟩
  · have hknown := h.known
    have hki : k ≠ i := by
      rintro rfl
      obtain rfl := mem_unique hk h.context
      rw [h.valid] at he
      cases he
    have hfront : (s.dta.rxContextIDQueue ++ [k]).head? = some i := by
      rw [List.head?_append, h.front]
      rfl
    refine .inr ⟨i, c, taken, hfront, (List.getElem?_set_ne hki).trans h.context, h.valid, h.jobID,
      ?_, Nat.le_succ_of_le hknown, h.books⟩
    show Absent job ((s.dta.contexts.set k d).set i DTARXContext.clear)
    rw [set_comm _ _ hki]
    exact h.others.set fun _ => by omega

theorem Tracks.checkSubmissionQueue {canScheduleTXJob found : Bool}
    (hs : s.dta.checkSubmissionQueue cacheLineSize canScheduleTXJob found = .ok dta) :
    Tracks job entries { s with dta := dta } := by
  rcases RxSide.checkSubmissionQueue_cases hs with ⟨turn, rfl⟩ | ⟨pkt, rest, u, _, hu, rfl⟩
  · exact h.frame rfl rfl rfl rfl le_rfl
  · have hturn : Tracks job entries { s with dta := { s.dta with checkRXJobQueue := false } } :=
      h.frame rfl rfl rfl rfl le_rfl
    have hparsed : Tracks job entries { s with dta := u } := by
      obtain ⟨hfalse, _⟩ | ⟨k, e, _, _, he, ⟨_, hu⟩ | ⟨hfree, hu⟩⟩ := RxSide.parse_cases hu
      · cases hfalse
      · obtain ⟨d, hd, hu⟩ := bind_eq_ok.mp hu
        obtain ⟨mbufAddr, written, n, rfl, hle, hn⟩ := RxSide.parseRest_cases hd
        have hset := hturn.set_context he (d := { e with
          mbufAddr := mbufAddr, rxCompleteMap := written, nMbufAddrReceived := n })
          ⟨rfl, rfl, rfl, rfl, rfl, rfl, hle, fun _ => hn⟩
        dsimp only at hu
        split at hu
        · cases hu
          exact hset.frame rfl rfl rfl rfl le_rfl
        · cases hu
          exact hset
      · exact hturn.openContext he hfree hu
    exact hparsed.frame rfl rfl rfl rfl le_rfl

theorem Tracks.checkRXJobCompletion (hfront : s.dta.rxContextIDQueue.head? = some k)
    (hs : s.dta.checkRXJobCompletion cacheLineSize k = .ok dta) :
    Tracks job entries { s with dta := dta } ∧
      ∀ j, dta.rxContextIDQueue.head? = some j → j = k ∨ Gone job dta := by
  obtain ⟨e, queue, he, ⟨d, rfl, hd⟩ | ⟨hvalid, rfl⟩⟩ := RxSide.checkRXJobCompletion_cases hs
  · have hset := h.set_context he (.of_account hd)
    exact ⟨hset.frame rfl rfl rfl rfl le_rfl, fun j hj => .inl (mem_unique hj hfront)⟩
  · have hgone : Gone job { s.dta with
        contexts := s.dta.contexts.set k DTARXContext.clear
        ioCacheRequestQueue := queue
        rxContextIDQueue := s.dta.rxContextIDQueue.tail } := by
      rcases h with h | ⟨i, c, taken, h⟩
      · exact ⟨h.none.set nofun, h.known⟩
      · obtain rfl : i = k := mem_unique h.front hfront
        exact ⟨h.others, h.known⟩
    exact ⟨.inl hgone, fun j _ => .inr hgone⟩

theorem Tracks.dtaRXStateMachine (hs : s.dta.dtaRXStateMachine cacheLineSize = .ok dta) :
    Tracks job entries { s with dta := dta } := by
  obtain rfl | ⟨i, rest, u, workers, queue, hqueue, hu, hrest⟩ := RxSide.dtaRXStateMachine_cases hs
  · exact h
  · obtain ⟨hchecked, hfront⟩ := h.checkRXJobCompletion (by rw [hqueue]; rfl) hu
    have hworked : Tracks job entries { s with
        dta := { u with workers := workers, ioCacheRequestQueue := queue } } :=
      hchecked.frame rfl rfl rfl rfl le_rfl
    have hnext := hworked.allocateWorkerFromQueue (k := i)
      (fun j hj => (hfront j hj).imp_right fun hgone => ⟨hgone.none, hgone.known⟩) hrest
    exact hnext

theorem Tracks.ioCacheDone
    (hs : s.dta.ioCacheDone k = .ok dta) : Tracks job entries { s with dta := dta } := by
  obtain ⟨workers, queue, rfl | ⟨i, e, written, he, _, rfl⟩⟩ := RxSide.ioCacheDone_cases hs
  · exact h.frame rfl rfl rfl rfl le_rfl
  · have hset := h.set_context he (d := { e with rxCompleteMap := written }) (.of_account rfl)
    exact hset.frame rfl rfl rfl rfl le_rfl

end

theorem noPacket_contexts (i : Nat) (c : DTARXContext) (dta : RxSide) :
    (RxSide.noPacket i (RxSide.answered c)
      ((dta.eraseRequest pkt).setContext i (RxSide.answered c))).contexts =
        dta.contexts.set i DTARXContext.clear := by
  simp only [RxSide.noPacket, RxSide.setContext, RxSide.pushIOCacheRequestQueue,
    RxSide.eraseRequest, set_set]

theorem Gone.recvTimingRespfromNIC (h : Gone job s.dta)
    (hs : s.dta.recvTimingRespfromNIC pkt = .ok dta) : Gone job dta := by
  obtain ⟨rfl, _⟩ | ⟨i, rest, e, _, he, hvalid, _, _, ⟨_, rfl⟩ | ⟨_, rfl⟩⟩ :=
    RxSide.recvTimingRespfromNIC_cases hs
  · exact ⟨h.none, h.known⟩
  · exact h.set he (noPacket_contexts i e s.dta) nofun le_rfl
  · refine h.set he (d := (RxSide.answered e).countResponse pkt.ddioHeader) ?_ (fun _ => ?_) le_rfl
    · simp only [RxSide.takeResponse, RxSide.setContext, RxSide.eraseRequest, set_set]
    · exact ⟨by unfold DTARXContext.countResponse; split <;> rfl, hvalid⟩

theorem Gone.sendRequestToNIC {accepts : Bool} {sent : Option CxlPacket} (h : Gone job s.dta)
    (hs : s.dta.sendRequestToNIC accepts = .ok (sent, dta)) : Gone job dta := by
  obtain ⟨⟨front, u⟩, hfront, hs⟩ := bind_eq_ok.mp hs
  obtain ⟨v, hv, hs⟩ := bind_eq_ok.mp hs
  cases hs
  have hu : u.contexts = s.dta.contexts ∧ u.globalRxJobID = s.dta.globalRxJobID := by
    obtain ⟨_, _, rfl⟩ | ⟨_, _, _, rfl⟩ | ⟨_, _, _, _, _, _, rfl⟩ :=
      RxSide.sendFront_cases hfront <;>
      exact ⟨rfl, rfl⟩
  obtain ⟨n, rfl, _⟩ | ⟨i, rest, e, _, he, hmore, rfl⟩ := RxSide.requestMore_cases hv
  · exact ⟨hu.1 ▸ h.none, hu.2 ▸ h.known⟩
  · rw [hu.1] at he
    refine h.set he (d := { e with numFreeRequestInNIC := e.numFreeRequestInNIC + 1 }) ?_
      (fun hv => ⟨rfl, hv⟩) hu.2.ge
    simp only [RxSide.setContext, hu.1]

theorem Tracks.sendRequestToNIC {accepts : Bool} {sent : Option CxlPacket}
    (h : Tracks job entries s) (hs : s.dta.sendRequestToNIC accepts = .ok (sent, dta)) :
    Tracks job entries (s.requested job sent dta) := by
  rcases h with h | ⟨i, c, taken, h⟩
  · exact .inl (h.sendRequestToNIC hs)
  · obtain ⟨c', halive⟩ := h.sendRequestToNIC hs
    exact .inr ⟨i, c', taken, halive⟩

theorem Alive.other {rest : List CxlPacket}
    {data : List UInt8} {ddioHeader : Bool} (h : Alive job entries s i c taken)
    (hnic : s.inNIC = pkt :: rest) (hpkt : pkt.jobID ≠ job)
    (hs : s.dta.recvTimingRespfromNIC { pkt with data := data, ddioHeader := ddioHeader } =
      .ok dta) :
    Alive job entries { s with dta := dta, inNIC := rest } i c taken := by
  obtain ⟨rfl, _⟩ | ⟨k, tail, e, hqueue, he, _, hjob, _⟩ := RxSide.recvTimingRespfromNIC_cases hs
  · refine h.frame rfl rfl le_rfl { h.books with free := h.books.free.trans ?_ }
    simp [outstanding, hnic, hpkt, RxSide.eraseRequest]
  · have hfront := h.front
    rw [hqueue] at hfront
    obtain rfl : k = i := Option.some.inj hfront
    obtain rfl := mem_unique he h.context
    exact absurd (hjob.symm.trans h.jobID) hpkt

theorem Alive.own (h : Alive job entries s i c taken) (hpkt : pkt.jobID = job)
    (hs : s.dta.recvTimingRespfromNIC { pkt with data := f.1, ddioHeader := f.2 } = .ok dta) :
    (f.1.any (· != 0) = false ∧ Gone job dta) ∨
      (f.1.any (· != 0) = true ∧ dta.contexts = s.dta.contexts.set i (counted c f) ∧
        dta.rxContextIDQueue = s.dta.rxContextIDQueue ∧ dta.cxlReqQueue = s.dta.cxlReqQueue ∧
        waiting dta = waiting s.dta ++ [f] ∧ dta.globalRxJobID = s.dta.globalRxJobID) := by
  obtain ⟨rest, hqueue⟩ := head?_eq_some_iff.mp h.front
  obtain ⟨_, hother⟩ | ⟨k, tail, e, hqueue', he, _, _, _, hcase⟩ :=
    RxSide.recvTimingRespfromNIC_cases hs
  · exact absurd (h.jobID.trans hpkt.symm) (hother i rest c hqueue h.context h.valid)
  · obtain ⟨rfl, -⟩ := List.cons.inj (hqueue'.symm.trans hqueue)
    obtain rfl := mem_unique he h.context
    rcases hcase with ⟨hzero, rfl⟩ | ⟨hnonzero, rfl⟩
    · refine .inl ⟨hzero, ?_, h.known⟩
      rw [noPacket_contexts]
      exact h.others
    · refine .inr ⟨hnonzero, ?_, rfl, rfl, ?_, rfl⟩
      · simp only [RxSide.takeResponse, RxSide.setContext, RxSide.eraseRequest, set_set,
          countResponse_answered]
      · simp [waiting, RxSide.takeResponse, RxSide.setContext, RxSide.eraseRequest]

theorem Tracks.respond {data : List UInt8} {ddioHeader : Bool}
    (hentries : ∀ e ∈ entries, Announces e) (h : Tracks job entries s)
    (hspaced : s.Spaced job (.respond data ddioHeader))
    (hs : s.respond job data ddioHeader = .ok t) : Tracks job entries t := by
  unfold RxJobRun.respond at hs
  split at hs
  · cases hs
    exact h
  · rename_i pkt rest hnic
    split at hs
    · rename_i hpkt
      split at hs
      · cases hs
        exact h
      · rename_i f more hleft
        obtain ⟨dta, hdta, rfl⟩ := map_eq_ok.mp hs
        rcases h with h | ⟨i, c, taken, h⟩
        · exact .inl (h.recvTimingRespfromNIC hdta)
        · obtain ⟨_, hgone⟩ | ⟨_, hcontexts, hqueue, hcxl, hwait, hglobal⟩ := h.own hpkt hdta
          · exact .inl hgone
          · have hspaced := hspaced pkt (by rw [hnic]; rfl) hpkt f (by rw [hleft]; rfl)
            exact .inr ⟨i, counted c f, taken, h.takeResponse hentries hleft hspaced hnic hpkt
              hcontexts hqueue hcxl hwait hglobal⟩
    · rename_i hpkt
      obtain ⟨dta, hdta, rfl⟩ := map_eq_ok.mp hs
      rcases h with h | ⟨i, c, taken, h⟩
      · exact .inl (h.recvTimingRespfromNIC hdta)
      · exact .inr ⟨i, c, taken, h.other hnic hpkt hdta⟩

theorem Tracks.noPacket (h : Tracks job entries s) (hs : s.noPacket = .ok t) :
    Tracks job entries t := by
  unfold RxJobRun.noPacket at hs
  split at hs
  · cases hs
    exact h
  · rename_i pkt rest hnic
    obtain ⟨dta, hdta, rfl⟩ := map_eq_ok.mp hs
    rcases h with h | ⟨i, c, taken, h⟩
    · exact .inl (h.recvTimingRespfromNIC hdta)
    · by_cases hpkt : pkt.jobID = job
      · obtain ⟨_, hgone⟩ | ⟨hnonzero, _⟩ :=
          h.own (f := (List.replicate 64 0, pkt.ddioHeader)) hpkt hdta
        · exact .inl hgone
        · have hzero : (List.replicate 64 (0 : UInt8)).any (· != 0) = false := by decide
          exact absurd (hzero.symm.trans hnonzero) Bool.false_ne_true
      · exact .inr ⟨i, c, taken, h.other hnic hpkt hdta⟩

theorem Tracks.step {a : RxJobAct} (hentries : ∀ e ∈ entries, Announces e)
    (h : Tracks job entries s) (ha : s.Spaced job a)
    (hs : s.step job cacheLineSize a = .ok t) : Tracks job entries t := by
  cases a with
  | job data pkt =>
    obtain ⟨⟨taken, dta⟩, hdta, hs⟩ := bind_eq_ok.mp hs
    cases hs
    rcases RxSide.recvTimingReq_cases hdta with rfl | rfl
    · exact h
    · exact h.frame rfl rfl rfl rfl le_rfl
  | checkSubmissionQueue canScheduleTXJob found =>
    obtain ⟨dta, hdta, rfl⟩ := map_eq_ok.mp hs
    exact h.checkSubmissionQueue hdta
  | transmit =>
    cases hs
    exact h.frame rfl rfl (by simp [reads]) rfl le_rfl
  | sendRequestToNIC accepts =>
    obtain ⟨⟨sent, dta⟩, hdta, hs⟩ := bind_eq_ok.mp hs
    cases hs
    exact h.sendRequestToNIC hdta
  | recvReqRetry accepts =>
    obtain ⟨⟨sent, dta⟩, hdta, hs⟩ := bind_eq_ok.mp hs
    cases hs
    obtain ⟨_, _, hdta⟩ := bind_eq_ok.mp hdta
    have hready : Tracks job entries { s with dta := { s.dta with waitingOnRetry := false } } :=
      h.frame rfl rfl rfl rfl le_rfl
    exact hready.sendRequestToNIC hdta
  | respond data ddioHeader => exact h.respond hentries ha hs
  | noPacket => exact h.noPacket hs
  | allocateWorkerFromQueue =>
    simp only [RxJobRun.step] at hs
    split at hs
    · cases hs
      exact h
    · rename_i i rest hqueue
      obtain ⟨dta, hdta, rfl⟩ := map_eq_ok.mp hs
      apply h.allocateWorkerFromQueue _ hdta
      intro j hj
      rw [hqueue] at hj
      exact .inl (Option.some.inj hj).symm
  | dtaRXStateMachine =>
    obtain ⟨dta, hdta, rfl⟩ := map_eq_ok.mp hs
    exact h.dtaRXStateMachine hdta
  | ioCacheDone k =>
    obtain ⟨dta, hdta, rfl⟩ := map_eq_ok.mp hs
    exact h.ioCacheDone hdta

theorem Starts.tracks (h : Starts job entries s) : Tracks job entries s := by
  obtain ⟨i, c, hfront, hc, hvalid, hjob, hrecv, hfree, hneeded, hreceived, hbuffers, hothers⟩ :=
    h.front
  have hwait : waiting s.dta = [] := by rw [waiting, h.idle, map_nil]
  refine .inr ⟨i, c, [], hfront, hc, hvalid, hjob, fun d hd hdv => ?_, h.known, ?_⟩
  · obtain ⟨k, hk⟩ := mem_iff_getElem?.mp hd
    by_cases hki : i = k
    · rw [← hki, List.getElem?_set_self (List.getElem?_eq_some_iff.mp hc).1] at hk
      cases hk
      cases hdv
    · rw [List.getElem?_set_ne hki] at hk
      exact hothers k d (Ne.symm hki) hk hdv
  · rw [hwait, h.none, h.left, h.issued]
    exact ⟨rfl, hrecv, hreceived, hneeded, by omega, by omega, hbuffers, hfree, by omega,
      by rw [hfree]; rfl⟩

theorem sum_count_take (hentries : ∀ e ∈ entries, Announces e) : ∀ n,
    ((entries.take n).map (count 64)).sum + (n - entries.length) =
      ((entries.take n).map fun e => count 64 e - 1).sum + n := by
  induction entries with
  | nil => simp
  | cons e rest ih =>
    intro n
    have hpos := (hentries e mem_cons_self).pos
    cases n with
    | zero => simp
    | succ n =>
      have hrest := ih (fun x hx => hentries x (mem_cons_of_mem e hx)) n
      simp only [take_succ_cons, map_cons, sum_cons, length_cons]
      omega

theorem sum_take_le {α : Type} (f : α → Nat) (l : List α) {m n : Nat} (h : m ≤ n) :
    ((l.take m).map f).sum ≤ ((l.take n).map f).sum := by
  exact ((take_sublist_take_left h).map f).sum_le_sum fun _ _ => Nat.zero_le _

theorem Tracks.accounts (hentries : ∀ e ∈ entries, Announces e) (h : Tracks job entries s) :
    Accounts job entries s := by
  intro k d hget hvalid hjob
  rcases h with h | ⟨i, c, taken, h⟩
  · exact absurd hjob (h.none d (mem_of_getElem? hget) hvalid)
  · have hki : k = i := by
      by_contra hne
      refine h.others d (mem_iff_getElem?.mpr ⟨k, ?_⟩) hvalid hjob
      rw [List.getElem?_set_ne (Ne.symm hne), hget]
    subst hki
    obtain rfl := mem_unique hget h.context
    obtain ⟨hstream, hrecv, hreceived, hneeded, henough, hroom, hbuffers, hfree, hlimit, hissued⟩ :=
      h.books
    refine ⟨?_, henough, hroom, hfree, ?_⟩
    · unfold DTARXContext.checkThreshold
      rw [if_pos hvalid, simAssert_of (decide_eq_true henough), sim_ok_bind,
        simAssert_of (decide_eq_true hroom), sim_ok_bind]
      exact ⟨_, rfl⟩
    · obtain ⟨hannounced, _, _⟩ := balance hentries hstream
      rw [← hrecv, announced_append, ← hneeded] at hannounced
      have hmono := sum_take_le (fun e => count 64 e - 1) entries (hroom.trans hbuffers)
      have hsum := sum_count_take hentries d.nbPkts
      have hlength := headers_add_continuations (taken ++ waiting s.dta)
      rw [← hrecv, ← hreceived] at hlength
      omega

end Invariant

/-- In every run from the time a job comes to the front in which a flit that is not a
header comes only when no header waits for a worker, the account of the job is right.
Its packets are of less than 64 kilobytes and have advanced one-buffer descriptors. -/
theorem job_accounts (job cacheLineSize : Nat) (entries : List (List UInt8)) (s t : RxJobRun)
    (hentries : ∀ e ∈ entries, ∃ (env : RxEnv) (packet : EthPacket),
      env.desctype = .advOneBuf ∧ packet.length < 2 ^ 16 ∧ encode env 64 packet = .ok e)
    (hstart : Starts job entries s) (hr : Reach (step job cacheLineSize) (Spaced job) s t) :
    Accounts job entries t := by
  have hannounces : ∀ e ∈ entries, Announces e := by
    intro e he
    obtain ⟨env, packet, htype, hlt, hencode⟩ := hentries e he
    exact (encode_entryOf htype hlt hencode).2.announces hlt
  have htracks : Tracks job entries t := by
    apply hr.invariant (P := Tracks job entries) hstart.tracks
    intro u v a hu ha hs
    exact hu.step hannounces ha hs
  exact htracks.accounts hannounces

def twoBuffers (entries : List (List UInt8)) : RxJobRun where
  dta := { RxSide.construct 1 with
    contexts := { DTARXContext.clear with
      rxJobID := 1
      valid := true
      completionAddr := 0x1000
      descAddr := 0x1040
      mbufAddr := [0x2000, 0x3000] ++ List.replicate 98 0
      nbPkts := 2
      nMbufAddrReceived := 2 } :: List.replicate 9 DTARXContext.clear
    rxContextIDQueue := [0]
    globalRxJobID := 1 }
  inNIC := []
  left := entries.flatMap (marked 64)
  issued := 0

theorem twoBuffers_starts (entries : List (List UInt8)) :
    Starts 1 entries (twoBuffers entries) where
  front := by
    refine ⟨0, _, rfl, rfl, rfl, rfl, rfl, rfl, rfl, rfl, by decide, ?_⟩
    intro k d hne hget hvalid
    obtain ⟨n, rfl⟩ := Nat.exists_eq_succ_of_ne_zero hne
    obtain rfl := eq_of_mem_replicate (mem_of_getElem? hget)
    cases hvalid
  known := le_rfl
  none := rfl
  idle := rfl
  left := rfl
  issued := rfl

/-- The entry of a packet of 112 bytes: two flits. -/
def twoFlitEntry : List UInt8 :=
  match encode RxM2funcContext.plainRxEnv 64 ⟨List.replicate 112 1⟩ with
  | .ok entry => entry
  | .error _ => []

theorem encode_twoFlitEntry :
    encode RxM2funcContext.plainRxEnv 64 ⟨List.replicate 112 1⟩ = .ok twoFlitEntry := rfl

instance (job : Nat) (s : RxJobRun) (a : RxJobAct) : Decidable (s.Spaced job a) :=
  match a with
  | .respond _ _ => inferInstanceAs (Decidable (∀ pkt ∈ s.inNIC.head?, _))
  | .job _ _ | .checkSubmissionQueue _ _ | .transmit | .sendRequestToNIC _ | .recvReqRetry _
  | .noPacket | .allocateWorkerFromQueue | .dtaRXStateMachine | .ioCacheDone _ => isTrue trivial

theorem job_accounts_two_flits :
    ∃ t, Reach (step 1 64) (Spaced 1) (twoBuffers [twoFlitEntry]) t ∧ t.left = [] ∧
      Accounts 1 [twoFlitEntry] t := by
  obtain ⟨t, ht, hleft⟩ := Reach.exists_of_runFrom (step 1 64) (Spaced 1)
    (twoBuffers [twoFlitEntry])
    [.sendRequestToNIC true, .sendRequestToNIC true, .sendRequestToNIC true, .respond [] true,
      .allocateWorkerFromQueue, .respond [] false, .sendRequestToNIC true]
    (fun s => s.left.isEmpty) (by decide +kernel)
  refine ⟨t, ht, List.isEmpty_iff.mp hleft, job_accounts 1 64 [twoFlitEntry] _ t ?_
    (twoBuffers_starts _) ht⟩
  intro e he
  rw [List.mem_singleton.mp he]
  exact ⟨_, _, rfl, by decide, encode_twoFlitEntry⟩

/-- When the second flit comes first, more flits have come than are announced, and the
next check of the threshold stops the simulation. -/
theorem header_waits_for_worker :
    ∃ t, Reach (step 1 64) (fun _ _ => True) (twoBuffers [twoFlitEntry]) t ∧
      t.step 1 64 (.sendRequestToNIC true) = .error .assertion ∧ ¬ Accounts 1 [twoFlitEntry] t := by
  obtain ⟨t, ht, hp⟩ := Reach.exists_of_runFrom (step 1 64) (fun _ _ => True)
    (twoBuffers [twoFlitEntry])
    [.sendRequestToNIC true, .sendRequestToNIC true, .sendRequestToNIC true, .respond [] true,
      .respond [] false]
    (fun s => failsWith (s.step 1 64 (.sendRequestToNIC true)) .assertion &&
      (s.dta.contexts[0]?).any fun c : DTARXContext => c.valid && c.rxJobID == 1 &&
        decide (c.nExtraCxlReqNeeded < c.nExtraCxlReqReceived)) (by decide +kernel)
  obtain ⟨hfails, hcounts⟩ := and_eq_true_iff.mp hp
  refine ⟨t, ht, failsWith_iff.mp hfails, fun h => ?_⟩
  cases hc : t.dta.contexts[0]? with
  | none =>
    rw [hc] at hcounts
    cases hcounts
  | some c =>
    simp only [hc, any_some, and_eq_true, beq_iff_eq, decide_eq_true_eq] at hcounts
    obtain ⟨⟨hvalid, hjob⟩, hlt⟩ := hcounts
    exact Nat.not_le_of_lt hlt (h 0 c hc hvalid hjob).2.1

end RxJobRun

end Gem5.DTA
