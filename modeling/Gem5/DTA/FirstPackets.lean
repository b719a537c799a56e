import Gem5.DTA.Submission

/-!
# Which packets are parsed as the first of a job

`ParseRun` numbers the packets by their place in the stream of the host and records those that
the accelerator parsed as the first packet of a job. A job that is told "no packet" before all
its packets were parsed leaves the others behind: those that wait already are parsed as if they
began a job, those still to come are dropped only if they look like the middle of one.
-/

namespace Gem5.DTA

open List IGbE

structure ParseRun where
  host : HostRun
  waiting : List Nat
  firsts : List Nat

namespace ParseRun

variable {jobs : List HostJob} {n i cacheLineSize : Nat} {job : HostJob} {s t : ParseRun}
  {c d : DTARXContext} {pkt : JobPacket} {contexts : List DTARXContext}

def start (numDTARXWorker : Nat) : ParseRun := ⟨.start numDTARXWorker, [], []⟩

def track (host : HostRun) (s : ParseRun) : ParseRun where
  host := host
  waiting :=
    if s.host.dta.rxJobSubmissionQueue.length < host.dta.rxJobSubmissionQueue.length then
      s.waiting ++ [s.host.sent]
    else if host.dta.rxJobSubmissionQueue.length < s.host.dta.rxJobSubmissionQueue.length then
      s.waiting.tail
    else s.waiting
  firsts :=
    if host.dta.globalRxJobID = s.host.dta.globalRxJobID then s.firsts
    else s.firsts ++ s.waiting.take 1

def step (jobs : List HostJob) (cacheLineSize : Nat) (s : ParseRun) (a : HostAct) :
    Sim ParseRun := do
  let host ← s.host.step jobs cacheLineSize a
  pure (s.track host)

/-- Packet `n` of the stream is the first one of a job. -/
def Begins (jobs : List HostJob) (n : Nat) : Prop := ∃ i < jobs.length, position jobs i = n

instance (jobs : List HostJob) (n : Nat) : Decidable (Begins jobs n) :=
  inferInstanceAs (Decidable (∃ i < jobs.length, _))

def FirstsBegin (jobs : List HostJob) (s : ParseRun) : Prop := ∀ n ∈ s.firsts, Begins jobs n

/-- A job is told "no packet" in its initialization stage only when none of its packets waits.
While no context is in this stage, a packet that comes behind others that wait is not taken for
the middle of a job, and one that continues a job is if none waits. The packets that are not
dropped have static data. -/
def LeftoversDropped (jobs : List HostJob) (s : ParseRun) : HostAct → Prop
  | .submit data => ∀ pkt ∈ (stream jobs)[s.host.sent]?,
      s.host.dta.rxJobSubmissionQueue.length < submissionQueueMaxSize →
      (getInitializationStageRXContextID s.host.dta.contexts = .ok none →
        if s.host.dta.rxJobSubmissionQueue = [] then Begins jobs s.host.sent ∨ 1024 < pkt.word 1
        else pkt.word 1 ≤ 1024) ∧
      (data.copy pkt = pkt ∨
        getInitializationStageRXContextID s.host.dta.contexts = .ok none ∧ 1024 < pkt.word 1)
  | .recvTimingRespfromNIC pkt => ∀ i ∈ s.host.dta.rxContextIDQueue.head?,
      ∀ c ∈ s.host.dta.contexts[i]?, c.valid = true → c.rxJobID = pkt.jobID →
      pkt.data.any (· != 0) = false → c.inInitializationStage = true →
      s.host.dta.rxJobSubmissionQueue = []
  | _ => True

instance (jobs : List HostJob) (s : ParseRun) : ∀ a, Decidable (LeftoversDropped jobs s a)
  | .submit _ => inferInstanceAs (Decidable
      (∀ pkt ∈ (stream jobs)[s.host.sent]?, _ → (_ → _) ∧ (_ ∨ _ ∧ _)))
  | .recvTimingRespfromNIC _ => inferInstanceAs (Decidable
      (∀ i ∈ s.host.dta.rxContextIDQueue.head?, ∀ c ∈ s.host.dta.contexts[i]?, _ → _ → _ → _ → _))
  | .checkSubmissionQueue _ _ | .sendRequestToNIC _ | .recvReqRetry _ | .dtaRXStateMachine
  | .ioCacheDone _ => inferInstanceAs (Decidable True)

section Stage

/-- No context but `k` is in the initialization stage. -/
def OnlyStage (contexts : List DTARXContext) (k : Nat) : Prop :=
  ∀ j e, contexts[j]? = some e → e.inInitializationStage = true → j = k

theorem serves_inStage (h : Serves c d) : d.inInitializationStage = c.inInitializationStage := by
  unfold DTARXContext.inInitializationStage
  rw [h.valid, h.nMbufAddrReceived, h.nbPkts]

theorem OnlyStage.serves {after : List DTARXContext} {k : Nat} (h : OnlyStage contexts k)
    (hs : List.Forall₂ Serves contexts after) : OnlyStage after k := by
  intro j e he hstage
  obtain ⟨c, hc, hce⟩ := forall₂_getElem? hs he
  exact h j c hc (serves_inStage hce ▸ hstage)

theorem OnlyStage.set {k : Nat} (h : OnlyStage contexts k) (d : DTARXContext) :
    OnlyStage (contexts.set k d) k := by
  intro j e he hstage
  by_cases hjk : j = k
  · exact hjk
  · rw [List.getElem?_set_ne (Ne.symm hjk)] at he
    exact h j e he hstage

theorem OnlyStage.clear {k : Nat} (h : OnlyStage contexts k) (i : Nat) :
    OnlyStage (contexts.set i DTARXContext.clear) k := by
  intro j e he hstage
  by_cases hji : j = i
  · subst hji
    have hlt := (List.getElem?_eq_some_iff.mp he).1
    rw [length_set] at hlt
    rw [List.getElem?_set_self hlt] at he
    obtain rfl := Option.some.inj he
    cases hstage
  · rw [List.getElem?_set_ne (Ne.symm hji)] at he
    exact h j e he hstage

theorem onlyStage_of_none (h : ∀ c ∈ contexts, c.inInitializationStage = false) (k : Nat) :
    OnlyStage contexts k := by
  intro j e he hstage
  rw [h e (mem_of_getElem? he)] at hstage
  cases hstage

theorem OnlyStage.search {k : Nat} (h : OnlyStage contexts k) :
    ∃ stage, getInitializationStageRXContextID contexts = .ok stage := by
  unfold getInitializationStageRXContextID
  generalize 0 = i
  induction contexts generalizing i k with
  | nil => exact ⟨none, rfl⟩
  | cons c rest ih =>
    unfold initializationLoop
    split
    · rename_i hstage
      have hk : 0 = k := h 0 c rfl hstage
      have hnone : ∀ e ∈ rest, e.inInitializationStage = false := by
        intro e he
        obtain ⟨j, hj⟩ := mem_iff_getElem?.mp he
        by_contra hin
        have hjk : j + 1 = k := h (j + 1) e hj (by simpa using hin)
        omega
      exact ⟨some i, initializationLoop_of_none hnone⟩
    · refine ih (k := k - 1) (fun j e hj hstage => ?_) (i + 1)
      have hjk : j + 1 = k := h (j + 1) e hj hstage
      omega

theorem onlyStage_step {a : HostAct} (h : ∃ k, OnlyStage s.host.dta.contexts k)
    (ht : s.step jobs cacheLineSize a = .ok t) : ∃ k, OnlyStage t.host.dta.contexts k := by
  obtain ⟨k, h⟩ := h
  obtain ⟨host, hhost, rfl⟩ := map_eq_ok.mp ht
  rcases HostRun.step_cases hhost with ⟨_, _, hsubmit⟩ | ⟨dta, rfl, hmove⟩
  · rcases HostRun.submit_cases hsubmit with rfl | ⟨_, _, _, ⟨_, _, rfl⟩ | ⟨_, _, _, rfl⟩⟩ <;>
      exact ⟨k, h⟩
  · cases hmove with
    | kept hkept => exact ⟨k, h.serves hkept.contexts⟩
    | noPacket _ _ _ _ _ _ hends
    | complete _ _ _ hends => exact ⟨k, (h.clear _).serves hends.contexts⟩
    | @continued _ _ k' _ d hp hstage _ _ _ _ =>
      obtain ⟨_, _, _, honly⟩ := getInitializationStage_some hstage
      exact ⟨k', hp.contexts ▸ OnlyStage.set honly d⟩
    | @opened _ _ k' _ d hp hstage _ _ _ =>
      exact ⟨k', hp.contexts ▸ (onlyStage_of_none (getInitializationStage_none hstage) k').set d⟩

end Stage

section Stream

/-- Packet `n` of the stream belongs to job `i` and is not its first one. -/
structure Inside (jobs : List HostJob) (n i : Nat) (job : HostJob) : Prop where
  member : jobs[i]? = some job
  begun : position jobs i < n
  missing : n < position jobs i + job.packets.length

theorem Inside.not_begins (h : Inside jobs n i job) : ¬ Begins jobs n := by
  rintro ⟨j, hj, rfl⟩
  have hbegun := h.begun
  have hmissing := h.missing
  rcases Nat.lt_or_ge i j with hij | hji
  · have hend := position_end_le h.member hij
    omega
  · have hle : position jobs j ≤ position jobs i := position_mono hji
    omega

theorem Inside.packet (h : Inside jobs n i job) (hpkt : (stream jobs)[n]? = some pkt) :
    ∃ m, n = position jobs i + (m + 1) ∧ job.packets[m + 1]? = some pkt := by
  have hbegun := h.begun
  have hmissing := h.missing
  refine ⟨n - position jobs i - 1, by omega, ?_⟩
  rw [show n - position jobs i - 1 + 1 = n - position jobs i by omega]
  exact stream_packet h.member (le_of_lt hbegun) hmissing hpkt

theorem inside_or_boundary (hjob : jobs[i]? = some job) (hle : position jobs i ≤ n)
    (hlt : n < position jobs i + job.packets.length) :
    Inside jobs (n + 1) i job ∨ n + 1 = position jobs (i + 1) := by
  rw [position_succ hjob]
  by_cases hmore : n + 1 < position jobs i + job.packets.length
  · exact .inl ⟨hjob, by omega, hmore⟩
  · exact .inr (by omega)

theorem begins_of_boundary (hn : n = position jobs i) (hpkt : (stream jobs)[n]? = some pkt) :
    ∃ job, jobs[i]? = some job ∧ job.first = pkt ∧ Begins jobs n := by
  have hlt := (List.getElem?_eq_some_iff.mp hpkt).1
  have hi : i < jobs.length := by
    by_contra hge
    rw [hn, position, take_of_length_le (not_lt.mp hge)] at hlt
    exact lt_irrefl _ hlt
  have hjob : jobs[i]? = some jobs[i] := List.getElem?_eq_getElem hi
  have hpos : 0 < jobs[i].packets.length := Nat.succ_pos _
  have hget := stream_packet hjob (le_of_eq hn.symm) (by omega) hpkt
  rw [hn, Nat.sub_self] at hget
  exact ⟨jobs[i], hjob, Option.some.inj hget, i, hi, hn.symm⟩

end Stream

/-- How the contexts and the packet `n` to be parsed next agree: no job is being read and one
may begin at `n`; or context `k` waits for packet `n` of its job; or the job of packet `n` was
told "no packet", and nothing waits. -/
inductive Stands (jobs : List HostJob) (sent n : Nat) (contexts : List DTARXContext) : Prop
  | between {i : Nat} (hnone : ∀ c ∈ contexts, c.inInitializationStage = false)
      (hn : n = position jobs i)
  | reading {i k : Nat} {job : HostJob} {c : DTARXContext} (hin : Inside jobs n i job)
      (hc : contexts[k]? = some c) (honly : OnlyStage contexts k) (hnb : c.nbPkts = job.nbPkts)
      (hvalid : c.valid = true)
      (hreceived : c.nMbufAddrReceived = (job.addressesIn (n - position jobs i)).length)
  | left {i : Nat} {job : HostJob} (hnone : ∀ c ∈ contexts, c.inInitializationStage = false)
      (hin : Inside jobs n i job) (hsent : n = sent)

namespace Stands

variable {sent k : Nat} {after : List DTARXContext}

theorem serves (h : Stands jobs sent n contexts) (hs : List.Forall₂ Serves contexts after) :
    Stands jobs sent n after := by
  have hnone : (∀ c ∈ contexts, c.inInitializationStage = false) →
      ∀ c ∈ after, c.inInitializationStage = false := by
    intro hall d hd
    obtain ⟨c, hc, hcd⟩ := forall₂_mem hs hd
    rw [serves_inStage hcd]
    exact hall c hc
  cases h with
  | between h hn => exact .between (hnone h) hn
  | reading hin hc honly hnb hvalid hreceived =>
    obtain ⟨d, hd, hcd⟩ := forall₂_getElem?_left hs hc
    exact .reading hin hd (honly.serves hs) (hcd.nbPkts.trans hnb) (hcd.valid.trans hvalid)
      (hcd.nMbufAddrReceived.trans hreceived)
  | left h hin hsent => exact .left (hnone h) hin hsent

theorem none_clear (h : ∀ c ∈ contexts, c.inInitializationStage = false) (k : Nat) :
    ∀ c ∈ contexts.set k DTARXContext.clear, c.inInitializationStage = false := by
  intro d hd
  rcases mem_or_eq_of_mem_set hd with hmem | rfl
  · exact h d hmem
  · rfl

theorem inStage (hin : Inside jobs n i job) (hnb : c.nbPkts = job.nbPkts) (hvalid : c.valid = true)
    (hreceived : c.nMbufAddrReceived = (job.addressesIn (n - position jobs i)).length) :
    c.inInitializationStage = true := by
  have hbegun := hin.begun
  have hmissing := hin.missing
  have hlt : (job.addressesIn (n - position jobs i)).length < job.nbPkts := by
    rw [show n - position jobs i = n - position jobs i - 1 + 1 by omega]
    exact HostJob.addressesIn_lt (by omega)
  unfold DTARXContext.inInitializationStage
  rw [hvalid, hreceived, hnb, decide_eq_true hlt]
  rfl

theorem ended (h : Stands jobs sent n contexts) (hc : contexts[k]? = some c)
    (hstage : c.inInitializationStage = false) :
    Stands jobs sent n (contexts.set k DTARXContext.clear) := by
  cases h with
  | between h hn => exact .between (none_clear h k) hn
  | @reading _ j _ e hin he honly hnb hvalid hreceived =>
    have hjk : k ≠ j := by
      rintro rfl
      obtain rfl := Option.mem_unique hc he
      rw [inStage hin hnb hvalid hreceived] at hstage
      cases hstage
    exact .reading hin (by rw [List.getElem?_set_ne hjk, he]) (honly.clear k) hnb hvalid hreceived
  | left h hin hsent => exact .left (none_clear h k) hin hsent

theorem aborted (h : Stands jobs sent n contexts) (hc : contexts[k]? = some c)
    (hstage : c.inInitializationStage = true) (hn : n = sent) :
    Stands jobs sent n (contexts.set k DTARXContext.clear) := by
  cases h with
  | between h _ | left h _ _ =>
    rw [h c (mem_of_getElem? hc)] at hstage
    cases hstage
  | reading hin he honly _ _ _ =>
    obtain rfl := honly k c hc hstage
    refine .left (fun d hd => ?_) hin hn
    by_contra hin
    obtain ⟨j, hj⟩ := mem_iff_getElem?.mp hd
    obtain rfl := honly.clear k j d hj (by simpa using hin)
    have hlt := (List.getElem?_eq_some_iff.mp hc).1
    rw [List.getElem?_set_self hlt] at hj
    exact hin (Option.some.inj hj ▸ rfl)

theorem advance (hjob : jobs[i]? = some job) (hle : position jobs i ≤ n)
    (hlt : n < position jobs i + job.packets.length) (hc : contexts[k]? = some c)
    (honly : OnlyStage contexts k) (hnb : d.nbPkts = job.nbPkts) (hvalid : d.valid = true)
    (hreceived : d.nMbufAddrReceived = (job.addressesIn (n + 1 - position jobs i)).length) :
    Stands jobs sent (n + 1) (contexts.set k d) := by
  have hk := (List.getElem?_eq_some_iff.mp hc).1
  rcases inside_or_boundary hjob hle hlt with hin | hnext
  · exact .reading hin (List.getElem?_set_self hk) (honly.set d) hnb hvalid hreceived
  · refine .between (fun e he => ?_) hnext
    by_contra hin
    obtain ⟨j, hj⟩ := mem_iff_getElem?.mp he
    obtain rfl := honly.set d j e hj (by simpa using hin)
    rw [List.getElem?_set_self hk] at hj
    obtain rfl := Option.some.inj hj
    rw [position_succ hjob] at hnext
    rw [show n + 1 - position jobs i = job.packets.length by omega, HostJob.addressesIn_all,
      ← hnb] at hreceived
    apply hin
    unfold DTARXContext.inInitializationStage
    rw [hreceived, decide_eq_false (lt_irrefl _), Bool.and_false]

end Stands

structure Follows (jobs : List HostJob) (n : Nat) (s : ParseRun) : Prop where
  sound : ∀ c ∈ s.host.dta.contexts, Sound c
  parsed_le : n ≤ s.host.sent
  sent_le : s.host.sent ≤ (stream jobs).length
  queue : s.host.dta.rxJobSubmissionQueue = ((stream jobs).take s.host.sent).drop n
  waiting : s.waiting = List.range' n (s.host.sent - n)
  firsts : FirstsBegin jobs s
  stands : Stands jobs s.host.sent n s.host.dta.contexts

section Track

variable {host : HostRun} {rest : List JobPacket}

theorem track_quiet (host : HostRun)
    (hqueue : host.dta.rxJobSubmissionQueue = s.host.dta.rxJobSubmissionQueue)
    (hglobal : host.dta.globalRxJobID = s.host.dta.globalRxJobID) :
    s.track host = ⟨host, s.waiting, s.firsts⟩ := by
  unfold track
  rw [hqueue, hglobal, if_neg (lt_irrefl _), if_neg (lt_irrefl _), if_pos rfl]

theorem track_pushed (host : HostRun)
    (hqueue : host.dta.rxJobSubmissionQueue = s.host.dta.rxJobSubmissionQueue ++ [pkt])
    (hglobal : host.dta.globalRxJobID = s.host.dta.globalRxJobID) :
    s.track host = ⟨host, s.waiting ++ [s.host.sent], s.firsts⟩ := by
  unfold track
  rw [hqueue, hglobal, length_append, length_singleton, if_pos (Nat.lt_succ_self _), if_pos rfl]

theorem track_waiting_popped (hqueue : s.host.dta.rxJobSubmissionQueue = pkt :: rest)
    (hrest : host.dta.rxJobSubmissionQueue = rest) : (s.track host).waiting = s.waiting.tail := by
  unfold track
  rw [hqueue, hrest, length_cons, if_neg (by omega), if_pos (Nat.lt_succ_self _)]

end Track

namespace Follows

variable {dta : RxSide} {k : Nat} {rest : List JobPacket}

theorem start (jobs : List HostJob) (numDTARXWorker : Nat) :
    Follows jobs 0 (start numDTARXWorker) where
  sound := fun _ hc => (mem_replicate.mp hc).2 ▸ Sound.clear
  parsed_le := Nat.zero_le _
  sent_le := Nat.zero_le _
  queue := rfl
  waiting := rfl
  firsts := fun _ h => absurd h not_mem_nil
  stands := .between (i := 0) (fun _ hc => (mem_replicate.mp hc).2 ▸ rfl) rfl

section

variable (h : Follows jobs n s)
include h

theorem quiet (hqueue : dta.rxJobSubmissionQueue = s.host.dta.rxJobSubmissionQueue)
    (hglobal : dta.globalRxJobID = s.host.dta.globalRxJobID) (hsound : ∀ c ∈ dta.contexts, Sound c)
    (hstands : Stands jobs s.host.sent n dta.contexts) :
    Follows jobs n (s.track (s.host.after dta)) := by
  rw [track_quiet _ hqueue hglobal]
  exact ⟨hsound, h.parsed_le, h.sent_le, hqueue.trans h.queue, h.waiting, h.firsts, hstands⟩

theorem kept (hk : RxSide.JobsKept s.host.dta dta) :
    Follows jobs n (s.track (s.host.after dta)) := by
  refine h.quiet hk.submissions hk.global (fun d hd => ?_) (h.stands.serves hk.contexts)
  obtain ⟨c, hc, hcd⟩ := forall₂_mem hk.contexts hd
  exact (h.sound c hc).serves hcd

theorem ends (hk : RxSide.JobEnds k s.host.dta dta)
    (hstands : Stands jobs s.host.sent n (s.host.dta.contexts.set k DTARXContext.clear)) :
    Follows jobs n (s.track (s.host.after dta)) := by
  refine h.quiet hk.submissions hk.global (fun d hd => ?_) (hstands.serves hk.contexts)
  obtain ⟨c, hc, hcd⟩ := forall₂_mem hk.contexts hd
  rcases mem_or_eq_of_mem_set hc with hmem | rfl
  · exact (h.sound c hmem).serves hcd
  · exact Sound.clear.serves hcd

theorem sent_of_empty (hempty : s.host.dta.rxJobSubmissionQueue = []) : n = s.host.sent := by
  have hlen := congrArg List.length (h.queue.symm.trans hempty)
  rw [length_drop, length_take, length_nil] at hlen
  have hle := h.parsed_le
  have hsent := h.sent_le
  omega

section

variable (hp : Parses s.host.dta dta pkt rest k c d)
include hp

theorem parsed (hsound : Sound d)
    (hfirsts : dta.globalRxJobID = s.host.dta.globalRxJobID ∨ Begins jobs n)
    (hstands : Stands jobs s.host.sent (n + 1) dta.contexts) :
    Follows jobs (n + 1) (s.track (s.host.after dta)) := by
  obtain ⟨hqueue, hsub, _, hcontexts⟩ := hp
  obtain ⟨hlt, _, hrest⟩ := front_of_queue (h.queue.symm.trans hqueue)
  have hwaiting : s.waiting = n :: List.range' (n + 1) (s.host.sent - (n + 1)) := by
    rw [h.waiting, show s.host.sent - n = s.host.sent - (n + 1) + 1 by omega, List.range'_succ]
  refine ⟨?_, hlt, h.sent_le, hsub.trans hrest, ?_, ?_, hstands⟩
  · intro e he
    change e ∈ dta.contexts at he
    rw [hcontexts] at he
    rcases mem_or_eq_of_mem_set he with hmem | rfl
    · exact h.sound e hmem
    · exact hsound
  · rw [track_waiting_popped hqueue hsub, hwaiting]
    rfl
  · intro m hm
    unfold track at hm
    dsimp only at hm
    split at hm
    · exact h.firsts m hm
    · rename_i hnew
      rw [hwaiting] at hm
      rcases mem_append.mp hm with hold | hone
      · exact h.firsts m hold
      · obtain rfl := mem_singleton.mp hone
        exact hfirsts.resolve_left hnew

theorem continued (hstage : c.inInitializationStage = true) (hd : c.parseRest pkt = .ok d)
    (hglobal : dta.globalRxJobID = s.host.dta.globalRxJobID) :
    Follows jobs (n + 1) (s.track (s.host.after dta)) := by
  obtain ⟨_, hpkt, _⟩ := front_of_queue (h.queue.symm.trans hp.queue)
  have hc := hp.context
  have hmem := mem_of_getElem? hc
  cases h.stands with
  | between hnone _ | left hnone _ _ =>
    rw [hnone c hmem] at hstage
    cases hstage
  | @reading i j job e hin he honly hnb hvalid hreceived =>
    obtain rfl := honly k c hc hstage
    obtain rfl := Option.mem_unique hc he
    obtain ⟨m, hn, hget⟩ := hin.packet hpkt
    have hoffset : n - position jobs i = m + 1 := by omega
    have hmissing : c.nMbufAddrReceived < c.nbPkts := by
      unfold DTARXContext.inInitializationStage at hstage
      simpa [hvalid] using hstage
    rw [hoffset] at hreceived
    have hnonzero : ∀ addr ∈ pkt.words.take
        (min restJobPacketNumMbufAddr (c.nbPkts - c.nMbufAddrReceived)), addr ≠ 0 := by
      rw [hnb, hreceived]
      exact HostJob.rest_nonzero hget
    obtain ⟨hsound, hdvalid, _, hdnb, hdreceived, _⟩ :=
      (h.sound c hmem).parseRest hvalid hmissing hnonzero hd
    refine h.parsed hp hsound (.inl hglobal) ?_
    rw [hp.contexts]
    refine .advance hin.member (le_of_lt hin.begun) hin.missing hc honly (hdnb.trans hnb)
      hdvalid ?_
    rw [show n + 1 - position jobs i = m + 2 by omega, HostJob.addressesIn_succ hget,
      length_append, hdreceived, hreceived, hnb]

theorem opened
    (hnone : ∀ e ∈ s.host.dta.contexts, e.inInitializationStage = false) (hfree : c.valid = false)
    (hd : c.parseFirst (s.host.dta.globalRxJobID + 1) cacheLineSize pkt = .ok d) :
    Follows jobs (n + 1) (s.track (s.host.after dta)) := by
  obtain ⟨hlt, hpkt, _⟩ := front_of_queue (h.queue.symm.trans hp.queue)
  cases h.stands with
  | left _ _ hsent => exact absurd hlt (by omega)
  | reading hin he _ hnb hvalid hreceived =>
    have hstage := Stands.inStage hin hnb hvalid hreceived
    rw [hnone _ (mem_of_getElem? he)] at hstage
    cases hstage
  | @between i _ hn =>
    obtain ⟨job, hjob, rfl, hbegins⟩ := begins_of_boundary hn hpkt
    obtain ⟨hsound, hdvalid, _, hdnb, hdreceived, hdbuffers⟩ :=
      (h.sound c (mem_of_getElem? hp.context)).parseFirst hfree job.le_max HostJob.first_nonzero hd
    refine h.parsed hp hsound (.inr hbegins) ?_
    have hpos : 0 < job.packets.length := Nat.succ_pos _
    rw [hp.contexts]
    refine .advance hjob (le_of_eq hn.symm) (by omega) hp.context (onlyStage_of_none hnone k) hdnb
      hdvalid ?_
    rw [show n + 1 - position jobs i = 1 by omega, HostJob.addressesIn_one, hdreceived, hdbuffers]
    rfl

end

theorem dropped (hpkt : (stream jobs)[s.host.sent]? = some pkt)
    (hnone : ∀ e ∈ s.host.dta.contexts, e.inInitializationStage = false)
    (hempty : s.host.dta.rxJobSubmissionQueue = []) (hlarge : 1024 < pkt.word 1) :
    Follows jobs (n + 1) (s.track { s.host with sent := s.host.sent + 1 }) := by
  obtain rfl := h.sent_of_empty hempty
  have hlt := (List.getElem?_eq_some_iff.mp hpkt).1
  have hstands : Stands jobs (s.host.sent + 1) (s.host.sent + 1) s.host.dta.contexts := by
    cases h.stands with
    | between _ hn =>
      obtain ⟨job, _, rfl, _⟩ := begins_of_boundary hn hpkt
      have hmax := job.le_max
      unfold dtaMaxMbufNum at hmax
      omega
    | reading hin he _ hnb hvalid hreceived =>
      have hstage := Stands.inStage hin hnb hvalid hreceived
      rw [hnone _ (mem_of_getElem? he)] at hstage
      cases hstage
    | left _ hin _ =>
      rcases inside_or_boundary hin.member (le_of_lt hin.begun) hin.missing with hin | hn
      · exact .left hnone hin rfl
      · exact .between hnone hn
  rw [track_quiet { s.host with sent := s.host.sent + 1 } rfl rfl]
  refine ⟨h.sound, le_rfl, hlt, ?_, ?_, h.firsts, hstands⟩
  · rw [hempty, drop_of_length_le]
    exact length_take_le ..
  · rw [h.waiting]
    simp

theorem queued {stage : Option Nat} (hpkt : (stream jobs)[s.host.sent]? = some pkt)
    (hinit : getInitializationStageRXContextID s.host.dta.contexts = .ok stage)
    (hleft : stage = none → s.host.dta.rxJobSubmissionQueue = [] → Begins jobs s.host.sent) :
    Follows jobs n (s.track { s.host with
      dta := { s.host.dta with
        rxJobSubmissionQueue := s.host.dta.rxJobSubmissionQueue ++ [pkt] }
      sent := s.host.sent + 1 }) := by
  have hlt := (List.getElem?_eq_some_iff.mp hpkt).1
  have hstands : Stands jobs (s.host.sent + 1) n s.host.dta.contexts := by
    cases h.stands with
    | between hnone hn => exact .between hnone hn
    | reading hin hc honly hnb hvalid hreceived => exact .reading hin hc honly hnb hvalid hreceived
    | left hnone hin hsent =>
      have hstage : stage = none := by
        cases stage with
        | none => rfl
        | some k =>
          obtain ⟨c, hc, hin, _⟩ := getInitializationStage_some hinit
          rw [hnone c (mem_of_getElem? hc)] at hin
          cases hin
      have hempty : s.host.dta.rxJobSubmissionQueue = [] := by
        rw [h.queue, hsent, drop_of_length_le]
        exact length_take_le ..
      exact absurd (hsent ▸ hleft hstage hempty) hin.not_begins
  have hle := h.parsed_le
  rw [track_pushed { s.host with
    dta := { s.host.dta with rxJobSubmissionQueue := s.host.dta.rxJobSubmissionQueue ++ [pkt] }
    sent := s.host.sent + 1 } rfl rfl]
  refine ⟨h.sound, Nat.le_succ_of_le hle, hlt, ?_, ?_, h.firsts, hstands⟩
  · rw [drop_take_succ hle hpkt, ← h.queue]
  · rw [h.waiting, show s.host.sent + 1 - n = s.host.sent - n + 1 by omega, List.range'_concat]
    simp only [Nat.one_mul, append_cancel_left_eq, List.cons.injEq, and_true]
    omega

theorem submit {data : PacketData} {host : HostRun} (ha : LeftoversDropped jobs s (.submit data))
    (ht : s.host.submit jobs data = .ok host) : ∃ n, Follows jobs n (s.track host) := by
  rcases HostRun.submit_cases ht with
    rfl | ⟨pkt, hpkt, hroom, ⟨hinit, hlarge, rfl⟩ | ⟨stage, hinit, hsmall, rfl⟩⟩
  · refine ⟨n, ?_⟩
    rw [track_quiet s.host rfl rfl]
    exact h
  · have hcond := (ha pkt hpkt hroom).1 hinit
    split at hcond
    · rename_i hempty
      exact ⟨n + 1, h.dropped hpkt (getInitializationStage_none hinit) hempty hlarge⟩
    · omega
  · obtain ⟨hcond, hstatic | ⟨hnone, hlarge⟩⟩ := ha pkt hpkt hroom
    case inr =>
      have hsmall := hsmall (Except.ok.inj (hinit.symm.trans hnone))
      omega
    rw [hstatic]
    refine ⟨n, h.queued hpkt hinit fun hnone hempty => ?_⟩
    subst hnone
    have hcond := hcond hinit
    rw [if_pos hempty] at hcond
    exact hcond.resolve_right (Nat.not_lt_of_le (hsmall rfl))

theorem step {a : HostAct} (ha : LeftoversDropped jobs s a)
    (ht : s.step jobs cacheLineSize a = .ok t) : ∃ n, Follows jobs n t := by
  obtain ⟨host, hhost, rfl⟩ := map_eq_ok.mp ht
  rcases HostRun.step_cases hhost with ⟨_, rfl, hsubmit⟩ | ⟨dta, rfl, hmove⟩
  · exact h.submit ha hsubmit
  · cases hmove with
    | kept hkept => exact ⟨n, h.kept hkept⟩
    | @noPacket pkt k c hact hfront hc hvalid hjob hzero hends =>
      subst hact
      refine ⟨n, h.ends hends ?_⟩
      cases hstage : c.inInitializationStage with
      | false => exact h.stands.ended hc hstage
      | true =>
        have hempty := ha k hfront c hc hvalid hjob hzero hstage
        exact h.stands.aborted hc hstage (h.sent_of_empty hempty)
    | complete hc hd hstage hends =>
      have hdone := (h.sound _ (mem_of_getElem? hc)).not_inStage hd hstage
      exact ⟨n, h.ends hends (h.stands.ended hc hdone)⟩
    | continued hp hstage _ _ hd hglobal =>
      obtain ⟨c', hc', hin, _⟩ := getInitializationStage_some hstage
      obtain rfl := Option.mem_unique hp.context hc'
      exact ⟨n + 1, h.continued hp hin hd hglobal⟩
    | opened hp hstage hfree hd _ =>
      exact ⟨n + 1, h.opened hp (getInitializationStage_none hstage) hfree hd⟩

end

end Follows

/-- In every run at most one context is in the initialization stage; and in a run that leaves
no packet of an ended job behind, what is parsed as the first packet of a job was sent as one. -/
theorem first_packets_begin_jobs (jobs : List HostJob) (cacheLineSize numDTARXWorker : Nat) :
    (∀ s, Reach (step jobs cacheLineSize) (fun _ _ => True) (start numDTARXWorker) s →
      ∃ stage, getInitializationStageRXContextID s.host.dta.contexts = .ok stage) ∧
    ∀ s, Reach (step jobs cacheLineSize) (LeftoversDropped jobs) (start numDTARXWorker) s →
      FirstsBegin jobs s := by
  constructor
  · intro s hr
    have hone := hr.invariant (P := fun s => ∃ k, OnlyStage s.host.dta.contexts k)
      ⟨0, onlyStage_of_none (fun _ hc => (mem_replicate.mp hc).2 ▸ rfl) 0⟩
      fun h _ ht => onlyStage_step h ht
    obtain ⟨k, honly⟩ := hone
    exact honly.search
  · intro s hr
    have hfollows := hr.invariant (P := fun s => ∃ n, Follows jobs n s)
      ⟨0, .start jobs numDTARXWorker⟩ (by
        rintro s t a ⟨n, h⟩ ha ht
        exact h.step ha ht)
    obtain ⟨n, h⟩ := hfollows
    exact h.firsts

theorem first_packets_begin_jobs_dropped :
    ∃ s : ParseRun, FirstsBegin [eightBuffers, eightBuffers] s ∧ s.firsts = [0, 2] ∧
      s.host.dta.noPacketJobs = [1] := by
  obtain ⟨s, hr, hs⟩ := Reach.exists_of_runFrom (step [eightBuffers, eightBuffers] 64)
    (LeftoversDropped [eightBuffers, eightBuffers]) (start 1)
    [.submit .static, .checkSubmissionQueue false false, .sendRequestToNIC true,
      .sendRequestToNIC true, .recvTimingRespfromNIC ⟨0, 1, List.replicate 64 0, false⟩,
      .submit .static, .submit .static, .checkSubmissionQueue false false]
    (fun s => s.firsts = [0, 2] ∧ s.host.dta.noPacketJobs = [1]) (by decide +kernel)
  exact ⟨s, (first_packets_begin_jobs [eightBuffers, eightBuffers] 64 1).2 s hr,
    hs⟩

/-- With the other packet in the queue by then, it is parsed as the first packet of a job. -/
theorem leftover_parsed_as_first :
    ∃ s : ParseRun, Reach (step [eightBuffers] 64) (fun _ _ => True) (start 1) s ∧
      s.firsts = [0, 1] ∧ ¬ FirstsBegin [eightBuffers] s := by
  obtain ⟨s, hr, hfirsts⟩ :
      ∃ s, Reach (step [eightBuffers] 64) (fun _ _ => True) (start 1) s ∧ s.firsts = [0, 1] :=
    Reach.exists_of_run [.submit .static, .checkSubmissionQueue false false, .submit .static,
      .sendRequestToNIC true, .sendRequestToNIC true,
      .recvTimingRespfromNIC ⟨0, 1, List.replicate 64 0, false⟩, .checkSubmissionQueue false false]
      (by decide +kernel)
  refine ⟨s, hr, hfirsts, fun hall => ?_⟩
  have hbegins := hall 1 (by simp [hfirsts])
  revert hbegins
  decide

end ParseRun

end Gem5.DTA
