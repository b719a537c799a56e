import Gem5.M2func.RxContext
import Gem5.Shared.Cells
import Gem5.Shared.Reachability

/-!
# The stream of flits of a receive context

Packets and reads may come in any order. What the reads return is always the front part
of the cells of the encoded packets; `Position` says where in the front entry the next
read continues.
-/

namespace Gem5.IGbE

open List Bool

namespace RxM2func

variable {env : RxEnv} {packet : EthPacket} {desc data entry : List UInt8} {n : Nat}

@[simp] theorem littleEndian_length (n x : Nat) : (littleEndian n x).length = n := by
  simp [littleEndian]

theorem descLength_pos (t : RxDescType) : 0 < descLength t := by
  cases t <;> simp [descLength]

theorem rxDesc_length (h : rxDesc env packet = .ok desc) :
    desc.length = descLength env.desctype := by
  unfold rxDesc at h
  cases ht : env.desctype with
  | legacy =>
    rw [ht] at h
    cases h
    simp [descLength]
  | advOneBuf =>
    rw [ht] at h
    obtain ⟨_, _, rfl⟩ := map_eq_ok.mp h
    cases env.pcsd <;> simp [descLength]
  | advSplitA | unimplemented code =>
    rw [ht] at h
    cases h

theorem dvd_cxlPktSize (n m : Nat) : n ∣ cxlPktSize n m := Dvd.intro_left _ rfl

theorem cxlPktSize_bounds {m : Nat} (hn : 0 < n) (hfits : m + n ≤ 2 ^ 32) :
    m ≤ cxlPktSize n m ∧ cxlPktSize n m < m + n := by
  unfold cxlPktSize
  rw [Nat.mod_eq_of_lt (by omega)]
  have hdiv := Nat.div_add_mod (m + n - 1) n
  have hmod := Nat.mod_lt (m + n - 1) hn
  rw [mul_comm] at hdiv
  omega

theorem pack_eq (h : pack n desc data = .ok entry) :
    entry = desc ++ data ++ List.replicate (entry.length - (desc.length + data.length)) 0 ∧
      entry.length = cxlPktSize n (desc.length + data.length) := by
  unfold pack at h
  simp only at h
  split at h
  · cases h
  · split at h
    · cases h
      have hlen : (desc ++ data ++ List.replicate (cxlPktSize n (desc.length + data.length) -
          (desc.length + data.length)) (0 : UInt8)).length =
          cxlPktSize n (desc.length + data.length) := by
        simp only [length_append, length_replicate]
        omega
      exact ⟨by rw [hlen], hlen⟩
    · cases h

theorem pack_bounds (hn : 0 < n) (hn' : n ≤ 2 ^ 31) (h : pack n desc data = .ok entry) :
    desc.length + data.length ≤ entry.length ∧ entry.length < desc.length + data.length + n := by
  have hlen := (pack_eq h).2
  unfold pack at h
  simp only at h
  split at h
  · cases h
  · split at h
    · have hb := cxlPktSize_bounds (m := desc.length + data.length) hn (by omega)
      omega
    · cases h

theorem pack_returns (desc data : List UInt8) (hn : 0 < n)
    (hfits : desc.length + data.length + n ≤ 2 ^ 31) :
    ∃ entry, pack n desc data = .ok entry := by
  have hb := cxlPktSize_bounds (m := desc.length + data.length) hn (by omega)
  unfold pack
  rw [if_neg (by omega), if_pos hb.1]
  exact ⟨_, rfl⟩

theorem encode_cases (h : encode env n packet = .ok entry) :
    ∃ desc, rxDesc env packet = .ok desc ∧ pack n desc packet.data = .ok entry :=
  bind_eq_ok.mp h

theorem encode_flits (h : encode env n packet = .ok entry) : n ∣ entry.length ∧ entry ≠ [] := by
  obtain ⟨desc, hdesc, hpack⟩ := encode_cases h
  obtain ⟨heq, hlen⟩ := pack_eq hpack
  refine ⟨hlen ▸ dvd_cxlPktSize _ _, ?_⟩
  rintro rfl
  have hd := rxDesc_length hdesc
  have hpos := descLength_pos env.desctype
  have hnil := congrArg List.length heq
  simp only [length_nil, length_append] at hnil
  omega

end RxM2func

inductive RxM2funcAct where
  | process (env : RxEnv) (packet : EthPacket)
  | deliver (packet : EthPacket)
  | read (env : RxEnv) (pkt : CxlPacket)
  | request (pkt : CxlPacket)
  | tick (env : RxEnv)

namespace RxM2funcContext

open RxM2func Cells

variable {cfg : M2funcConfig} {env : RxEnv} {s t : RxM2funcContext} {packet : EthPacket}
  {entry : List UInt8} {rest : List (List UInt8)} {pkt : CxlPacket} {k : Nat}

def step (cfg : M2funcConfig) (s : RxM2funcContext) : RxM2funcAct → Sim RxM2funcContext
  | .process env packet => s.processRxPacket cfg env packet
  | .deliver packet => pure { s with rxPacket := s.rxPacket.or (some packet) }
  | .read env pkt => do
    let (_, s) ← s.readM2funcPacket cfg env pkt
    pure s
  | .request pkt => pure (s.pushCXLReqBuf cfg pkt).2
  | .tick env => s.rxM2funcStateMachine cfg env

def flits (answers : List (Answer × CxlPacket)) : List (List UInt8 × Bool) :=
  (answers.filter fun a => a.1 == .flit).map fun a => (a.2.data, a.2.ddioHeader)

def entries (s : RxM2funcContext) : List (List UInt8) := s.hist.given.map Prod.snd

/-- `k` flits of the front entry have been read. -/
structure Position (cfg : M2funcConfig) (s : RxM2funcContext) (k : Nat) : Prop where
  whole : ∀ b ∈ s.m2funcRxFifo, cfg.flitSize ∣ b.length ∧ b ≠ []
  sent : s.bytesSent = k * cfg.flitSize
  remain : s.remainPacket = decide (0 < k)
  within : 0 < k → ∃ b rest, s.m2funcRxFifo = b :: rest ∧ k < count cfg.flitSize b
  flow : flits s.hist.answered ++ left cfg.flitSize s.m2funcRxFifo k =
    s.entries.flatMap (marked cfg.flitSize)

attribute [local simp] RxM2funcContext.construct logRead entries simAssert

theorem Position.construct (cfg : M2funcConfig) : Position cfg construct 0 where
  whole := by simp
  sent := by simp
  remain := rfl
  within := fun h => absurd h (lt_irrefl 0)
  flow := rfl

theorem Position.of_same (h : Position cfg s k) (hremain : t.remainPacket = s.remainPacket)
    (hsent : t.bytesSent = s.bytesSent) (hfifo : t.m2funcRxFifo = s.m2funcRxFifo)
    (hgiven : t.hist.given = s.hist.given) (hanswered : t.hist.answered = s.hist.answered) :
    Position cfg t k where
  whole := hfifo ▸ h.whole
  sent := hsent.trans h.sent
  remain := hremain.trans h.remain
  within := hfifo ▸ h.within
  flow := by
    rw [hanswered, hfifo, h.flow, entries, entries, hgiven]

theorem Position.le_length (h : Position cfg s k) :
    k ≤ (s.m2funcRxFifo.flatMap (marked cfg.flitSize)).length := by
  rcases Nat.eq_zero_or_pos k with rfl | hk
  · exact Nat.zero_le _
  · obtain ⟨b, rest, hfifo, hlt⟩ := h.within hk
    rw [hfifo, flatMap_cons, length_append, marked_length]
    omega

theorem Position.pushEntry (h : Position cfg s k)
    (hentry : cfg.flitSize ∣ entry.length ∧ entry ≠ []) :
    Position cfg (s.pushEntry packet entry) k where
  whole := by
    intro b hb
    rcases mem_append.mp hb with hb | hb
    · exact h.whole b hb
    · rw [mem_singleton.mp hb]
      exact hentry
  sent := h.sent
  remain := h.remain
  within := by
    intro hk
    obtain ⟨b, rest, hfifo, hlt⟩ := h.within hk
    exact ⟨b, rest ++ [entry], by simp [RxM2funcContext.pushEntry, hfifo], hlt⟩
  flow := by
    have hleft := left_append (n := cfg.flitSize) (b := entry) h.le_length
    simp only [RxM2funcContext.pushEntry, entries, map_append, flatMap_append, hleft]
    rw [← append_assoc, h.flow]
    simp

theorem Position.process (h : Position cfg s k)
    (hs : s.processRxPacket cfg env packet = .ok t) : Position cfg t k := by
  obtain ⟨entry, hentry, rfl⟩ := map_eq_ok.mp hs
  exact h.pushEntry (encode_flits hentry)

structure Fresh (cfg : M2funcConfig) (pkt : CxlPacket) : Prop where
  size : pkt.data.length = cfg.flitSize
  unmarked : pkt.ddioHeader = false

theorem setData_all {n : Nat} (pkt : CxlPacket) (bytes : List UInt8) (hpkt : pkt.data.length = n) :
    pkt.setData bytes n = .ok { pkt with data := bytes.take n } := by
  simp [CxlPacket.setData, hpkt, drop_eq_nil_of_le (le_of_eq hpkt)]

/-- The context after flit `k` of the front entry. -/
def advance (cfg : M2funcConfig) (entry : List UInt8) (rest : List (List UInt8)) (k : Nat)
    (s : RxM2funcContext) : RxM2funcContext :=
  if k + 1 = count cfg.flitSize entry then
    { s with remainPacket := false, bytesSent := 0, m2funcRxFifo := rest }
  else { s with remainPacket := true, bytesSent := (k + 1) * cfg.flitSize }

theorem length_eq_count {n : Nat} (hdvd : n ∣ entry.length) : entry.length = count n entry * n :=
  (Nat.div_mul_cancel hdvd).symm

theorem readFirst_eq (hn : 0 < cfg.flitSize) (h : Position cfg s 0)
    (hfifo : s.m2funcRxFifo = entry :: rest) (hpkt : Fresh cfg pkt) :
    s.readFirst cfg entry rest pkt = .ok (⟨pkt.req, pkt.jobID, cell cfg.flitSize entry 0, true⟩,
        s.advance cfg entry rest 0) := by
  obtain ⟨hdvd, hne⟩ := h.whole entry (by simp [hfifo])
  have hlen := length_eq_count hdvd
  have hpos := count_pos hn hdvd hne
  have hset : CxlPacket.setData entry cfg.flitSize { pkt with ddioHeader := true } =
      .ok ⟨pkt.req, pkt.jobID, cell cfg.flitSize entry 0, true⟩ := by
    rw [setData_all { pkt with ddioHeader := true } entry hpkt.size]
    simp [cell]
  unfold readFirst advance
  by_cases hone : 1 = count cfg.flitSize entry
  · rw [← hone, Nat.one_mul] at hlen
    have hsent := h.sent
    have hremain := h.remain
    cases s
    simp_all
  · have hlt : 1 * cfg.flitSize < entry.length := by
      rw [hlen]
      exact Nat.mul_lt_mul_of_pos_right (by omega) hn
    rw [if_pos (by omega), if_neg (by omega)]
    simp [hset]

theorem readRest_eq (hn : 0 < cfg.flitSize) (h : Position cfg s k) (hk : 0 < k)
    (hfifo : s.m2funcRxFifo = entry :: rest) (hpkt : Fresh cfg pkt) :
    s.readRest cfg entry rest pkt = .ok (⟨pkt.req, pkt.jobID, cell cfg.flitSize entry k, false⟩,
        s.advance cfg entry rest k) := by
  obtain ⟨hdvd, _⟩ := h.whole entry (by simp [hfifo])
  have hlen := length_eq_count hdvd
  obtain ⟨b, rest', hfifo', hlt⟩ := h.within hk
  obtain ⟨rfl, rfl⟩ := List.cons.inj (hfifo.symm.trans hfifo')
  have hle : (k + 1) * cfg.flitSize ≤ entry.length := by
    rw [hlen]
    exact Nat.mul_le_mul_right _ hlt
  have hstep : (k + 1) * cfg.flitSize = k * cfg.flitSize + cfg.flitSize := Nat.succ_mul _ _
  have hcopy : (if cfg.flitSize < entry.length - k * cfg.flitSize then cfg.flitSize
      else entry.length - k * cfg.flitSize) = cfg.flitSize := by
    split <;> omega
  have hlast : k * cfg.flitSize + cfg.flitSize = entry.length ↔
      k + 1 = count cfg.flitSize entry := by
    rw [← hstep, hlen]
    exact Nat.mul_right_cancel_iff hn
  have hcell : (entry.drop (k * cfg.flitSize)).take cfg.flitSize = cell cfg.flitSize entry k := rfl
  unfold readRest advance
  rw [h.sent, if_pos (by omega)]
  simp only [hcopy, setData_all pkt _ hpkt.size, hcell, sim_ok_bind, hlast, hpkt.unmarked]
  split
  · rfl
  · have hremain : s.remainPacket = true := by simp [h.remain, hk]
    rw [hstep, ← hremain]
    rfl

theorem readM2funcPacket_flit (hn : 0 < cfg.flitSize) (h : Position cfg s k)
    (hfifo : s.m2funcRxFifo = entry :: rest) (hpkt : Fresh cfg pkt) :
    s.readM2funcPacket cfg env pkt = .ok (⟨pkt.req, pkt.jobID, cell cfg.flitSize entry k, k == 0⟩,
        (s.advance cfg entry rest k).logRead .flit
          ⟨pkt.req, pkt.jobID, cell cfg.flitSize entry k, k == 0⟩) := by
  unfold readM2funcPacket
  rw [hfifo, simAssert_of (by simp [hpkt.size])]
  simp only [h.remain]
  rcases Nat.eq_zero_or_pos k with rfl | hk
  · simp [readFirst_eq hn h hfifo hpkt]
  · have hne : (k == 0) = false := by simp; omega
    simp [hk, readRest_eq hn h hk hfifo hpkt, hne]

theorem position_lt (h : Position cfg s k) (hn : 0 < cfg.flitSize)
    (hfifo : s.m2funcRxFifo = entry :: rest) : k < count cfg.flitSize entry := by
  rcases Nat.eq_zero_or_pos k with rfl | hk
  · obtain ⟨hdvd, hne⟩ := h.whole entry (by simp [hfifo])
    exact count_pos hn hdvd hne
  · obtain ⟨b, rest', hfifo', hlt⟩ := h.within hk
    obtain ⟨rfl, rfl⟩ := List.cons.inj (hfifo.symm.trans hfifo')
    exact hlt

theorem Position.advance (h : Position cfg s k) (hn : 0 < cfg.flitSize)
    (hfifo : s.m2funcRxFifo = entry :: rest)
    (hdata : pkt.data = cell cfg.flitSize entry k) (hmark : pkt.ddioHeader = (k == 0)) :
    ∃ j, Position cfg ((s.advance cfg entry rest k).logRead .flit pkt) j := by
  have hlt := position_lt h hn hfifo
  have hnext : flits (s.hist.answered ++ [(.flit, pkt)]) ++
      left cfg.flitSize (entry :: rest) (k + 1) = s.entries.flatMap (marked cfg.flitSize) := by
    rw [← h.flow, hfifo, left_cons hlt]
    simp [flits, hdata, hmark]
  by_cases hlast : k + 1 = count cfg.flitSize entry
  · refine ⟨0, ?_, ?_, ?_, ?_, ?_⟩
    · intro b hb
      simp only [RxM2funcContext.advance, logRead, if_pos hlast] at hb
      exact h.whole b (by rw [hfifo]; exact mem_cons_of_mem _ hb)
    · simp [RxM2funcContext.advance, if_pos hlast]
    · simp [RxM2funcContext.advance, if_pos hlast]
    · exact fun hk => absurd hk (lt_irrefl 0)
    · rw [hlast, left_next] at hnext
      simpa [RxM2funcContext.advance, if_pos hlast] using hnext
  · refine ⟨k + 1, ?_, ?_, ?_, ?_, ?_⟩
    · simpa [RxM2funcContext.advance, if_neg hlast] using h.whole
    · simp [RxM2funcContext.advance, if_neg hlast]
    · simp [RxM2funcContext.advance, if_neg hlast]
    · intro _
      exact ⟨entry, rest, by simp [RxM2funcContext.advance, if_neg hlast, hfifo], by omega⟩
    · simpa [RxM2funcContext.advance, if_neg hlast, hfifo] using hnext

theorem Position.empty (h : Position cfg s k) (hfifo : s.m2funcRxFifo = []) :
    k = 0 ∧ flits s.hist.answered = s.entries.flatMap (marked cfg.flitSize) := by
  have hk : k = 0 := by
    by_contra hk
    obtain ⟨b, rest, hcons, _⟩ := h.within (Nat.pos_of_ne_zero hk)
    rw [hfifo] at hcons
    cases hcons
  refine ⟨hk, ?_⟩
  rw [← h.flow, hfifo]
  simp [left]

def AtBoundary (cfg : M2funcConfig) (s : RxM2funcContext) : Prop :=
  ∀ i pkt, s.hist.answered[i]? = some (.zeroed, pkt) → ∃ j ≤ s.entries.length,
    flits (s.hist.answered.take i) = (s.entries.take j).flatMap (marked cfg.flitSize)

theorem AtBoundary.given (h : AtBoundary cfg s) (hanswered : t.hist.answered = s.hist.answered)
    (hgiven : ∃ news, t.entries = s.entries ++ news) : AtBoundary cfg t := by
  intro i pkt hi
  obtain ⟨news, hnews⟩ := hgiven
  rw [hanswered] at hi ⊢
  obtain ⟨j, hj, heq⟩ := h i pkt hi
  refine ⟨j, by rw [hnews, length_append]; omega, ?_⟩
  rw [hnews, take_append_of_le_length hj, heq]

theorem AtBoundary.logRead {a : Answer} (h : AtBoundary cfg s)
    (hentries : t.entries = s.entries) (hanswered : t.hist.answered = s.hist.answered ++ [(a, pkt)])
    (hzero : a = .zeroed → flits s.hist.answered = s.entries.flatMap (marked cfg.flitSize)) :
    AtBoundary cfg t := by
  intro i pkt' hi
  rw [hanswered] at hi ⊢
  rw [hentries]
  by_cases hlt : i < s.hist.answered.length
  · rw [List.getElem?_append_left hlt] at hi
    rw [take_append_of_le_length (le_of_lt hlt)]
    exact h i pkt' hi
  · have hlast : i = s.hist.answered.length := by
      have := (List.getElem?_eq_some_iff.mp hi).1
      rw [length_append, length_singleton] at this
      omega
    subst hlast
    rw [List.getElem?_concat_length] at hi
    obtain ⟨rfl, _⟩ := Prod.mk.inj (Option.some.inj hi)
    refine ⟨s.entries.length, le_rfl, ?_⟩
    rw [take_left' rfl, take_length]
    exact hzero rfl

structure Jobs (cfg : M2funcConfig) (s : RxM2funcContext) : Prop where
  order : s.hist.sent.map (fun x => (x.2.req, x.2.jobID)) ++
    s.m2funcCXLReqBuf.map (fun p => (p.req, p.jobID)) =
      s.hist.pushed.map fun p => (p.req, p.jobID)
  kind : ∀ x ∈ s.hist.sent, s.dtaRXJobSuccess x.2.jobID = some (x.1 == .flit)
  fresh : ∀ pkt ∈ s.m2funcCXLReqBuf, Fresh cfg pkt

theorem Jobs.construct (cfg : M2funcConfig) : Jobs cfg construct where
  order := rfl
  kind := by simp
  fresh := by simp

theorem Jobs.of_same (h : Jobs cfg s) (hbuf : t.m2funcCXLReqBuf = s.m2funcCXLReqBuf)
    (hjobs : t.dtaRXJobSuccess = s.dtaRXJobSuccess) (hpushed : t.hist.pushed = s.hist.pushed)
    (hsent : t.hist.sent = s.hist.sent) : Jobs cfg t where
  order := by rw [hsent, hbuf, hpushed, h.order]
  kind := by rw [hsent, hjobs]; exact h.kind
  fresh := hbuf ▸ h.fresh

theorem Jobs.push (h : Jobs cfg s) (hpkt : Fresh cfg pkt) :
    Jobs cfg (s.pushCXLReqBuf cfg pkt).2 := by
  unfold pushCXLReqBuf
  split
  · exact h
  · refine ⟨?_, h.kind, ?_⟩
    · simp only [map_append, ← append_assoc, h.order]
    · intro q hq
      rcases mem_append.mp hq with hq | hq
      · exact h.fresh q hq
      · rw [mem_singleton.mp hq]
        exact hpkt

theorem Jobs.answer {a : Answer} {req : CxlPacket} {reqs : List CxlPacket} (h : Jobs cfg s)
    (hbuf : s.m2funcCXLReqBuf = req :: reqs) (hbuf' : t.m2funcCXLReqBuf = reqs)
    (hpushed : t.hist.pushed = s.hist.pushed) (hsent : t.hist.sent = s.hist.sent ++ [(a, pkt)])
    (hreq : pkt.req = req.req ∧ pkt.jobID = req.jobID)
    (hjobs : ∀ id b, s.dtaRXJobSuccess id = some b → t.dtaRXJobSuccess id = some b)
    (hkind : t.dtaRXJobSuccess req.jobID = some (a == .flit)) : Jobs cfg t where
  order := by
    rw [hpushed, ← h.order, hbuf, hbuf', hsent]
    simp [hreq]
  kind := by
    rw [hsent]
    intro x hx
    rcases mem_append.mp hx with hx | hx
    · exact hjobs _ _ (h.kind x hx)
    · rw [mem_singleton.mp hx, hreq.2]
      exact hkind
  fresh := by
    intro q hq
    exact h.fresh q (by rw [hbuf]; exact mem_cons_of_mem _ (hbuf' ▸ hq))

theorem answerRequest_cases (h : s.answerRequest cfg env = .ok t) :
    t = s ∨ ∃ req reqs started jobs, s.m2funcCXLReqBuf = req :: reqs ∧
      (∀ id b, s.dtaRXJobSuccess id = some b → jobs id = some b) ∧ ((jobs req.jobID = some false ∧
          answerZeroed cfg env req reqs
            { s with isLoadGenStarted := started, dtaRXJobSuccess := jobs } = .ok t) ∨
        (jobs req.jobID = some true ∧ s.m2funcRxFifo ≠ [] ∧ answerFlit cfg env req reqs
            { s with isLoadGenStarted := started, dtaRXJobSuccess := jobs } = .ok t)) := by
  have hkeep : ∀ id c, s.dtaRXJobSuccess id = none → ∀ id' b', s.dtaRXJobSuccess id' = some b' →
      Function.update s.dtaRXJobSuccess id (some c) id' = some b' := by
    intro id c hnone id' b' hsome
    have hne : id' ≠ id := by
      rintro rfl
      rw [hnone] at hsome
      cases hsome
    rw [Function.update_of_ne hne, hsome]
  unfold answerRequest at h
  split at h
  · exact .inl (eq_of_ok h rfl)
  · rename_i req reqs hbuf
    split at h
    · rename_i hjob
      split at h
      · split at h
        · exact .inr ⟨req, reqs, _, _, hbuf, hkeep _ false hjob, .inl
            ⟨by rw [Function.update_self], h⟩⟩
        · exact .inl (eq_of_ok h rfl)
      · rename_i hfifo
        exact .inr ⟨req, reqs, _, _, hbuf, hkeep _ true hjob, .inr
          ⟨by rw [Function.update_self], by simpa using hfifo, h⟩⟩
    · rename_i hjob
      split at h
      · exact .inl (eq_of_ok h rfl)
      · rename_i hfifo
        exact .inr ⟨req, reqs, _, _, hbuf, fun _ _ hb => hb, .inr
          ⟨hjob, by simpa using hfifo, h⟩⟩
    · rename_i hjob
      exact .inr ⟨req, reqs, _, _, hbuf, fun _ _ hb => hb, .inl ⟨hjob, h⟩⟩

structure Stream (cfg : M2funcConfig) (s : RxM2funcContext) : Prop where
  position : ∃ k, Position cfg s k
  boundary : AtBoundary cfg s
  encoded : ∀ x ∈ s.hist.given, ∃ env, encode env cfg.flitSize x.1 = .ok x.2

theorem Stream.construct (cfg : M2funcConfig) : Stream cfg construct where
  position := ⟨0, Position.construct cfg⟩
  boundary := by simp [AtBoundary]
  encoded := by simp

theorem Stream.of_same (h : Stream cfg s) (hremain : t.remainPacket = s.remainPacket)
    (hsent : t.bytesSent = s.bytesSent) (hfifo : t.m2funcRxFifo = s.m2funcRxFifo)
    (hgiven : t.hist.given = s.hist.given) (hanswered : t.hist.answered = s.hist.answered) :
    Stream cfg t := by
  obtain ⟨k, hk⟩ := h.position
  exact ⟨⟨k, hk.of_same hremain hsent hfifo hgiven hanswered⟩,
    h.boundary.given hanswered ⟨[], by simp [hgiven]⟩, hgiven ▸ h.encoded⟩

theorem Stream.process (h : Stream cfg s) (hs : s.processRxPacket cfg env packet = .ok t) :
    Stream cfg t := by
  obtain ⟨k, hk⟩ := h.position
  have hposition := hk.process hs
  obtain ⟨entry, hentry, rfl⟩ := map_eq_ok.mp hs
  refine ⟨⟨k, hposition⟩, h.boundary.given rfl ⟨[entry], by simp [pushEntry]⟩, ?_⟩
  intro x hx
  rcases mem_append.mp hx with hx | hx
  · exact h.encoded x hx
  · rw [mem_singleton.mp hx]
    exact ⟨env, hentry⟩

def jobSide (s : RxM2funcContext) :=
  (s.m2funcCXLReqBuf, s.dtaRXJobSuccess, s.rxPacket, s.hist.given, s.hist.pushed, s.hist.sent)

theorem advance_jobSide (s : RxM2funcContext) :
    (s.advance cfg entry rest k).jobSide = s.jobSide := by
  unfold RxM2funcContext.advance
  split <;> rfl

theorem advance_hist (s : RxM2funcContext) : (s.advance cfg entry rest k).hist = s.hist := by
  unfold RxM2funcContext.advance
  split <;> rfl

theorem advance_answered (s : RxM2funcContext) (pkt : CxlPacket) :
    ((s.advance cfg entry rest k).logRead .flit pkt).hist.answered =
      s.hist.answered ++ [(.flit, pkt)] := by
  simp [advance_hist]

theorem Stream.read {out : CxlPacket} (hn : 0 < cfg.flitSize) (h : Stream cfg s)
    (hpkt : Fresh cfg pkt) (hs : s.readM2funcPacket cfg env pkt = .ok (out, t)) :
    Stream cfg t ∧ (out.req = pkt.req ∧ out.jobID = pkt.jobID) ∧ t.jobSide = s.jobSide := by
  obtain ⟨k, hk⟩ := h.position
  cases hfifo : s.m2funcRxFifo with
  | nil =>
    obtain ⟨rfl, hall⟩ := hk.empty hfifo
    unfold readM2funcPacket at hs
    rw [hfifo] at hs
    obtain ⟨_, _, hs⟩ := bind_eq_ok.mp hs
    obtain ⟨data, _, hs⟩ := bind_eq_ok.mp hs
    cases hs
    refine ⟨⟨⟨0, ?_⟩, h.boundary.logRead rfl rfl fun _ => hall, h.encoded⟩, ⟨rfl, rfl⟩, rfl⟩
    refine ⟨hk.whole, hk.sent, hk.remain, hk.within, ?_⟩
    have hflow := hk.flow
    simpa [flits] using hflow
  | cons entry rest =>
    rw [readM2funcPacket_flit hn hk hfifo hpkt] at hs
    cases hs
    refine ⟨⟨hk.advance hn hfifo rfl rfl, ?_, ?_⟩, ⟨rfl, rfl⟩, ?_⟩
    · refine h.boundary.logRead ?_ (advance_answered s _) (fun hz => by cases hz)
      simp [advance_hist]
    · simpa [advance_hist] using h.encoded
    · exact advance_jobSide s

theorem Stream.answerRequest (hn : 0 < cfg.flitSize) (h : Stream cfg s) (hj : Jobs cfg s)
    (hs : s.answerRequest cfg env = .ok t) :
    Stream cfg t ∧ Jobs cfg t ∧ t.rxPacket = s.rxPacket := by
  rcases answerRequest_cases hs with rfl | ⟨req, reqs, started, jobs, hbuf, hkeep, hcase⟩
  · exact ⟨h, hj, rfl⟩
  · rcases hcase with ⟨hkind, hs⟩ | ⟨hkind, _, hs⟩
    · obtain ⟨pkt, hpkt, hs⟩ := bind_eq_ok.mp hs
      obtain ⟨_, _, hpkt⟩ := bind_eq_ok.mp hpkt
      obtain ⟨data, _, rfl⟩ := map_eq_ok.mp hpkt
      cases hs
      exact ⟨h.of_same rfl rfl rfl rfl rfl,
        hj.answer hbuf rfl rfl rfl ⟨rfl, rfl⟩ hkeep hkind, rfl⟩
    · obtain ⟨⟨pkt, u⟩, hread, hs⟩ := bind_eq_ok.mp hs
      cases hs
      have hfresh := hj.fresh req (by rw [hbuf]; exact mem_cons_self)
      have hstream : Stream cfg { s with
          m2funcCXLReqBuf := reqs, isLoadGenStarted := started, dtaRXJobSuccess := jobs } :=
        h.of_same rfl rfl rfl rfl rfl
      obtain ⟨hu, hreq, hside⟩ := hstream.read hn hfresh hread
      simp only [jobSide, Prod.mk.injEq] at hside
      refine ⟨hu.of_same rfl rfl rfl rfl rfl,
        hj.answer (a := .flit) hbuf hside.1 hside.2.2.2.2.1 ?_ hreq ?_ ?_, hside.2.2.1⟩
      · simp [sendCXLResp, hside.2.2.2.2.2]
      · simpa [sendCXLResp, hside.2.1] using hkeep
      · simpa [sendCXLResp, hside.2.1] using hkind

theorem Stream.takePacket (h : Stream cfg s) (hj : Jobs cfg s)
    (hs : s.takePacket cfg env = .ok t) : Stream cfg t ∧ Jobs cfg t := by
  unfold RxM2funcContext.takePacket at hs
  split at hs
  · cases hs
    exact ⟨h, hj⟩
  · split at hs
    · cases hs
      exact ⟨h, hj⟩
    · obtain ⟨u, hu, rfl⟩ := map_eq_ok.mp hs
      have hstream := h.process hu
      obtain ⟨entry, _, rfl⟩ := map_eq_ok.mp hu
      exact ⟨hstream.of_same rfl rfl rfl rfl rfl, hj.of_same rfl rfl rfl rfl⟩

def suits (cfg : M2funcConfig) (env : RxEnv) : Bool :=
  (env.desctype == .legacy || env.desctype == .advOneBuf) &&
    decide (descLength env.desctype ≤ cfg.flitSize)

/-- The device accepts the packet, and the size of its entry is an `int`. -/
def takes (cfg : M2funcConfig) (env : RxEnv) (packet : EthPacket) : Bool :=
  suits cfg env &&
    (env.desctype == .legacy || decide (packet.length < RxDescCache.bufferLen env)) &&
    decide (descLength env.desctype + packet.length + cfg.flitSize ≤ 2 ^ 31)

def Suited (cfg : M2funcConfig) (s : RxM2funcContext) : RxM2funcAct → Prop
  | .process env packet => takes cfg env packet = true
  | .deliver _ => True
  | .read env pkt => suits cfg env = true ∧ Fresh cfg pkt
  | .request pkt => Fresh cfg pkt
  | .tick env => suits cfg env = true ∧ s.rxPacket.all (takes cfg env) = true

instance (cfg : M2funcConfig) (pkt : CxlPacket) : Decidable (Fresh cfg pkt) :=
  decidable_of_iff (pkt.data.length = cfg.flitSize ∧ pkt.ddioHeader = false)
    ⟨fun h => ⟨h.1, h.2⟩, fun h => ⟨h.size, h.unmarked⟩⟩

instance (cfg : M2funcConfig) (s : RxM2funcContext) (a : RxM2funcAct) :
    Decidable (Suited cfg s a) :=
  match a with
  | .process _ _ => inferInstanceAs (Decidable (_ = _))
  | .deliver _ => isTrue trivial
  | .read _ _ => inferInstanceAs (Decidable (_ ∧ _))
  | .request _ => inferInstanceAs (Decidable (Fresh _ _))
  | .tick _ => inferInstanceAs (Decidable (_ ∧ _))

theorem Stream.request (h : Stream cfg s) : Stream cfg (s.pushCXLReqBuf cfg pkt).2 := by
  unfold pushCXLReqBuf
  split
  · exact h
  · exact h.of_same rfl rfl rfl rfl rfl

theorem Stream.dtaResponse (hn : 0 < cfg.flitSize) (h : Stream cfg s) (hj : Jobs cfg s)
    (hs : s.dtaResponse cfg env = .ok t) :
    Stream cfg t ∧ Jobs cfg t ∧ t.rxPacket = s.rxPacket := by
  unfold RxM2funcContext.dtaResponse at hs
  split at hs
  · exact h.answerRequest hn hj hs
  · cases hs
    exact ⟨h, hj, rfl⟩

theorem Stream.step {a : RxM2funcAct} (hn : 0 < cfg.flitSize) (h : Stream cfg s) (hj : Jobs cfg s)
    (ha : Suited cfg s a) (hs : RxM2funcContext.step cfg s a = .ok t) :
    Stream cfg t ∧ Jobs cfg t := by
  cases a with
  | process env packet =>
    have hstream := h.process hs
    obtain ⟨entry, _, rfl⟩ := map_eq_ok.mp hs
    exact ⟨hstream, hj.of_same rfl rfl rfl rfl⟩
  | deliver packet =>
    cases hs
    exact ⟨h.of_same rfl rfl rfl rfl rfl, hj.of_same rfl rfl rfl rfl⟩
  | read env pkt =>
    obtain ⟨⟨out, u⟩, hread, hs⟩ := bind_eq_ok.mp hs
    cases hs
    obtain ⟨hu, _, hside⟩ := h.read hn ha.2 hread
    simp only [jobSide, Prod.mk.injEq] at hside
    exact ⟨hu, hj.of_same hside.1 hside.2.1 hside.2.2.2.2.1 hside.2.2.2.2.2⟩
  | request pkt =>
    cases hs
    exact ⟨h.request, hj.push ha⟩
  | tick env =>
    obtain ⟨u, hu, hs⟩ := bind_eq_ok.mp hs
    obtain ⟨hstream, hjobs, _⟩ := h.dtaResponse hn hj hu
    exact hstream.takePacket hjobs hs

theorem zeroFlit_returns (h : suits cfg env = true) :
    ∃ data, zeroFlit env cfg.flitSize = .ok data := by
  simp only [suits, and_eq_true, or_eq_true, beq_iff_eq, decide_eq_true_eq] at h
  unfold zeroFlit
  rcases h with ⟨ht | ht, hle⟩
  · rw [ht] at hle ⊢
    exact ⟨_, if_pos hle⟩
  · rw [ht] at hle ⊢
    exact ⟨_, if_pos hle⟩

theorem encode_returns (hn : 0 < cfg.flitSize) (h : takes cfg env packet = true) :
    ∃ entry, encode env cfg.flitSize packet = .ok entry := by
  simp only [takes, suits, and_eq_true, or_eq_true, beq_iff_eq, decide_eq_true_eq] at h
  obtain ⟨⟨⟨ht, _⟩, hlen⟩, hsize⟩ := h
  have hdesc : ∃ desc, rxDesc env packet = .ok desc := by
    unfold rxDesc
    rcases ht with ht | ht
    · rw [ht]
      exact ⟨_, rfl⟩
    · rw [ht] at hlen ⊢
      have hlt : packet.length < RxDescCache.bufferLen env := by simpa using hlen
      simp [hlt]
  obtain ⟨desc, hdesc⟩ := hdesc
  obtain ⟨entry, hentry⟩ := pack_returns desc packet.data hn
    (by rw [rxDesc_length hdesc]; exact hsize)
  exact ⟨entry, by simp [encode, hdesc, hentry]⟩

theorem readM2funcPacket_returns (hn : 0 < cfg.flitSize) (h : Stream cfg s)
    (hsuits : suits cfg env = true) (hpkt : Fresh cfg pkt) :
    ∃ out, s.readM2funcPacket cfg env pkt = .ok out := by
  obtain ⟨k, hk⟩ := h.position
  cases hfifo : s.m2funcRxFifo with
  | nil =>
    obtain ⟨data, hdata⟩ := zeroFlit_returns hsuits
    simp [readM2funcPacket, hfifo, hpkt.size, hdata]
  | cons entry rest => exact ⟨_, readM2funcPacket_flit hn hk hfifo hpkt⟩

theorem answerZeroed_returns {reqs : List CxlPacket} (hsuits : suits cfg env = true)
    (hpkt : Fresh cfg pkt) : ∃ t, answerZeroed cfg env pkt reqs s = .ok t := by
  obtain ⟨data, hdata⟩ := zeroFlit_returns hsuits
  simp [answerZeroed, makeZeroedResponse, hpkt.size, hdata]

section

variable (hn : 0 < cfg.flitSize)
include hn

theorem answerFlit_returns {reqs : List CxlPacket} (h : Stream cfg s)
    (hsuits : suits cfg env = true) (hpkt : Fresh cfg pkt) :
    ∃ t, answerFlit cfg env pkt reqs s = .ok t := by
  have hu : Stream cfg { s with m2funcCXLReqBuf := reqs } := h.of_same rfl rfl rfl rfl rfl
  obtain ⟨⟨out, u⟩, hread⟩ := readM2funcPacket_returns hn hu hsuits hpkt
  simp [answerFlit, hread]

theorem answerRequest_returns (h : Stream cfg s) (hj : Jobs cfg s)
    (hsuits : suits cfg env = true) : ∃ t, s.answerRequest cfg env = .ok t := by
  unfold RxM2funcContext.answerRequest
  cases hbuf : s.m2funcCXLReqBuf with
  | nil => exact ⟨s, rfl⟩
  | cons req reqs =>
    have hfresh := hj.fresh req (by rw [hbuf]; exact mem_cons_self)
    simp only
    split
    · split
      · split
        · exact answerZeroed_returns hsuits hfresh
        · exact ⟨s, rfl⟩
      · apply answerFlit_returns hn _ hsuits hfresh
        exact h.of_same rfl rfl rfl rfl rfl
    · split
      · exact ⟨s, rfl⟩
      · exact answerFlit_returns hn h hsuits hfresh
    · exact answerZeroed_returns hsuits hfresh

theorem takePacket_returns (h : s.rxPacket.all (takes cfg env) = true) :
    ∃ t, s.takePacket cfg env = .ok t := by
  unfold RxM2funcContext.takePacket
  cases hp : s.rxPacket with
  | none => exact ⟨s, rfl⟩
  | some packet =>
    rw [hp] at h
    obtain ⟨entry, hentry⟩ := encode_returns hn h
    simp only
    split
    · exact ⟨s, rfl⟩
    · simp [processRxPacket, hentry]

theorem step_returns {a : RxM2funcAct} (h : Stream cfg s)
    (hj : Jobs cfg s) (ha : Suited cfg s a) : ∃ t, step cfg s a = .ok t := by
  cases a with
  | process env packet =>
    obtain ⟨entry, hentry⟩ := encode_returns hn ha
    exact ⟨_, by simp [RxM2funcContext.step, processRxPacket, hentry]; rfl⟩
  | deliver packet => exact ⟨_, rfl⟩
  | read env pkt =>
    obtain ⟨⟨out, u⟩, hread⟩ := readM2funcPacket_returns hn h ha.1 ha.2
    exact ⟨u, by simp [RxM2funcContext.step, hread]⟩
  | request pkt => exact ⟨_, rfl⟩
  | tick env =>
    obtain ⟨u, hu⟩ : ∃ u, s.dtaResponse cfg env = .ok u := by
      unfold dtaResponse
      split
      · exact answerRequest_returns hn h hj ha.1
      · exact ⟨s, rfl⟩
    obtain ⟨_, _, hpacket⟩ := h.dtaResponse hn hj hu
    obtain ⟨t, ht⟩ := takePacket_returns (s := u) hn (by rw [hpacket]; exact ha.2)
    exact ⟨t, by simp [RxM2funcContext.step, rxM2funcStateMachine, hu, ht]⟩

end

/-- What the reads of a context return: of the cells of the encoded packets, in the
order of arrival, the first ones, each once and with the mark on the first cell of a
packet. Requests are answered in order, and those of one job in one way. -/
structure Streams (cfg : M2funcConfig) (s : RxM2funcContext) : Prop where
  encoded : ∀ x ∈ s.hist.given, ∃ env desc pad, rxDesc env x.1 = .ok desc ∧
    x.2 = desc ++ x.1.data ++ List.replicate pad 0 ∧ cfg.flitSize ∣ x.2.length
  returned : flits s.hist.answered <+: s.entries.flatMap (marked cfg.flitSize)
  bytes : ((flits s.hist.answered).map Prod.fst).flatten <+: s.entries.flatten
  drained : s.m2funcRxFifo = [] →
    flits s.hist.answered = s.entries.flatMap (marked cfg.flitSize)
  boundary : AtBoundary cfg s
  remain : s.remainPacket = true ↔ ∃ b rest, s.m2funcRxFifo = b :: rest ∧ 0 < s.bytesSent ∧
    s.bytesSent < b.length
  order : s.hist.sent.map (fun x => (x.2.req, x.2.jobID)) <+:
    s.hist.pushed.map fun p => (p.req, p.jobID)
  kind : ∀ x ∈ s.hist.sent, ∀ y ∈ s.hist.sent, x.2.jobID = y.2.jobID → x.1 = y.1

theorem Stream.streams (hn : 0 < cfg.flitSize) (h : Stream cfg s) (hj : Jobs cfg s) :
    Streams cfg s := by
  obtain ⟨k, hk⟩ := h.position
  have hreturned : flits s.hist.answered <+: s.entries.flatMap (marked cfg.flitSize) :=
    ⟨_, hk.flow⟩
  refine ⟨?_, hreturned, ?_, fun hfifo => (hk.empty hfifo).2, h.boundary, ?_, ?_, ?_⟩
  · intro x hx
    obtain ⟨env, hencode⟩ := h.encoded x hx
    obtain ⟨desc, hdesc, hpack⟩ := encode_cases hencode
    exact ⟨env, desc, _, hdesc, (pack_eq hpack).1, (encode_flits hencode).1⟩
  · have hdvd : ∀ b ∈ s.entries, cfg.flitSize ∣ b.length := by
      intro b hb
      obtain ⟨x, hx, rfl⟩ := mem_map.mp hb
      obtain ⟨env, hencode⟩ := h.encoded x hx
      exact (encode_flits hencode).1
    rw [← flatMap_marked_flatten hdvd]
    exact (hreturned.map Prod.fst).flatten
  · constructor
    · intro hremain
      have hpos : 0 < k := by simpa [hk.remain] using hremain
      obtain ⟨b, rest, hfifo, hlt⟩ := hk.within hpos
      have hdvd := (hk.whole b (by simp [hfifo])).1
      refine ⟨b, rest, hfifo, ?_, ?_⟩
      · rw [hk.sent]
        exact Nat.mul_pos hpos hn
      · rw [hk.sent, length_eq_count hdvd]
        exact Nat.mul_lt_mul_of_pos_right hlt hn
    · rintro ⟨b, rest, _, hpos, _⟩
      rw [hk.sent] at hpos
      simp [hk.remain, Nat.pos_of_mul_pos_right hpos]
  · exact ⟨_, hj.order⟩
  · intro x hx y hy hjob
    have hxk := hj.kind x hx
    rw [hjob, hj.kind y hy] at hxk
    cases hx1 : x.1 <;> cases hy1 : y.1 <;> simp_all

/-- In every run in which a flit has room for a descriptor, and the packets and buffers
are such that the device accepts them, nothing stops the device and the flits it
returns are the stream of the encoded packets. -/
theorem m2func_rx_stream (cfg : M2funcConfig) (hn : 0 < cfg.flitSize) (s : RxM2funcContext)
    (h : Reach (step cfg) (Suited cfg) construct s) :
    Streams cfg s ∧ ∀ a, Suited cfg s a → ∃ t, step cfg s a = .ok t := by
  have hboth : Stream cfg s ∧ Jobs cfg s := by
    refine h.invariant (P := fun u => Stream cfg u ∧ Jobs cfg u)
      ⟨Stream.construct cfg, Jobs.construct cfg⟩ ?_
    intro u v a hu ha hs
    exact hu.1.step hn hu.2 ha hs
  exact ⟨hboth.1.streams hn hboth.2, fun a ha => step_returns hn hboth.1 hboth.2 ha⟩

def plainRxEnv : RxEnv where
  desctype := .advOneBuf
  lpe := false
  bufLen := 0
  hdrLen := 0
  descSize := 2048
  secrc := true
  pcss := 0
  ipofld := false
  tuofld := false
  pcsd := true
  inet := fun _ => ⟨none, false, none, none, 0⟩

/-- A request of job `job` with a buffer of `n` bytes. -/
def freshRequest (n req job : Nat) : CxlPacket := ⟨req, job, List.replicate n 0, false⟩

/-- A context with flits of `n` bytes that serves an accelerator. -/
def dtaContext (n : Nat) : M2funcConfig := ⟨n, 4, 4, true⟩

theorem m2func_rx_stream_two_flits :
    ∃ s, Reach (step (dtaContext 64)) (Suited (dtaContext 64)) construct s ∧
      (flits s.hist.answered).map Prod.snd = [true, false] ∧ s.hist.sent.length = 2 ∧
      Streams (dtaContext 64) s := by
  obtain ⟨s, hs, hp⟩ := Reach.exists_of_runFrom (step (dtaContext 64)) (Suited (dtaContext 64))
    construct [.request (freshRequest 64 1 7), .request (freshRequest 64 2 7),
      .request (freshRequest 64 3 7), .deliver ⟨List.replicate 60 1⟩, .process plainRxEnv
      ⟨List.replicate 60 2⟩, .tick plainRxEnv, .tick plainRxEnv]
    (fun s => (flits s.hist.answered).map Prod.snd = [true, false] ∧ s.hist.sent.length = 2)
    (by decide +kernel)
  exact ⟨s, hs, hp.1, hp.2, (m2func_rx_stream (dtaContext 64) (by decide) s hs).1⟩

/-- With flits of eight bytes a read that finds no packet copies the sixteen bytes of an
empty descriptor past the end of its buffer. -/
theorem zero_flit_overflows :
    step (dtaContext 8) construct (.read plainRxEnv (freshRequest 8 1 7)) =
      .error .outOfBounds := rfl

end RxM2funcContext

end Gem5.IGbE
