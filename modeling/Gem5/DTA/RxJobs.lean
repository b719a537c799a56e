import Gem5.DTA.RxSteps

/-!
# The buffers of the receive jobs

The packets of a job fill the buffer list of its context. Every other function leaves the
lists as they are, or clears the context of a job that has ended. `Serves` is what such a
function does to one context.
-/

namespace Gem5.DTA

open List IGbE

section Pointwise

variable {α β : Type} {R : α → β → Prop} {l : List α} {l' : List β}

theorem forall₂_set {R : α → α → Prop} {l : List α} {i : Nat} {a b : α} (hrefl : ∀ x, R x x)
    (hi : l[i]? = some a) (hab : R a b) : List.Forall₂ R l (l.set i b) := by
  obtain ⟨hlt, rfl⟩ := List.getElem?_eq_some_iff.mp hi
  refine forall₂_iff_get.mpr ⟨length_set.symm, fun k h₁ h₂ => ?_⟩
  rw [get_eq_getElem, get_eq_getElem, List.getElem_set]
  split
  · subst ‹i = k›
    exact hab
  · exact hrefl _

theorem forall₂_getElem? (h : List.Forall₂ R l l') {i : Nat} {b : β} (hi : l'[i]? = some b) :
    ∃ a, l[i]? = some a ∧ R a b := by
  obtain ⟨hlt, rfl⟩ := List.getElem?_eq_some_iff.mp hi
  have hlt' := h.length_eq ▸ hlt
  exact ⟨_, List.getElem?_eq_getElem hlt', (forall₂_iff_get.mp h).2 i hlt' hlt⟩

theorem forall₂_mem (h : List.Forall₂ R l l') {b : β} (hb : b ∈ l') : ∃ a ∈ l, R a b := by
  obtain ⟨i, hi⟩ := mem_iff_getElem?.mp hb
  obtain ⟨a, ha, hab⟩ := forall₂_getElem? h hi
  exact ⟨a, mem_of_getElem? ha, hab⟩

theorem forall₂_getElem?_left (h : List.Forall₂ R l l') {i : Nat} {a : α} (hi : l[i]? = some a) :
    ∃ b, l'[i]? = some b ∧ R a b :=
  forall₂_getElem? h.flip hi

end Pointwise

variable {c d e : DTARXContext} {s t u : RxSide} {cacheLineSize : Nat}

structure Serves (c d : DTARXContext) : Prop where
  valid : d.valid = c.valid
  rxJobID : d.rxJobID = c.rxJobID
  nbPkts : d.nbPkts = c.nbPkts
  nMbufAddrReceived : d.nMbufAddrReceived = c.nMbufAddrReceived
  mbufAddr : d.mbufAddr = c.mbufAddr
  keys : ∀ addr, (d.rxCompleteMap addr).isSome = (c.rxCompleteMap addr).isSome
  stage : d.completionStage = true → c.completionStage = true ∨
    ∀ addr ∈ c.mbufAddr.take c.nbPkts, (c.rxCompleteMap addr).isSome = true

theorem Serves.refl (c : DTARXContext) : Serves c c :=
  ⟨rfl, rfl, rfl, rfl, rfl, fun _ => rfl, .inl⟩

theorem Serves.trans (h : Serves c d) (k : Serves d e) : Serves c e where
  valid := k.valid.trans h.valid
  rxJobID := k.rxJobID.trans h.rxJobID
  nbPkts := k.nbPkts.trans h.nbPkts
  nMbufAddrReceived := k.nMbufAddrReceived.trans h.nMbufAddrReceived
  mbufAddr := k.mbufAddr.trans h.mbufAddr
  keys := fun addr => (k.keys addr).trans (h.keys addr)
  stage := by
    intro hstage
    rcases k.stage hstage with hd | hall
    · exact h.stage hd
    · refine .inr fun addr haddr => ?_
      rw [← h.keys addr]
      exact hall addr (by rwa [h.mbufAddr, h.nbPkts])

theorem Serves.of_eq (h : (d.valid, d.rxJobID, d.nbPkts, d.nMbufAddrReceived, d.mbufAddr,
      d.rxCompleteMap, d.completionStage) = (c.valid, c.rxJobID, c.nbPkts, c.nMbufAddrReceived,
      c.mbufAddr, c.rxCompleteMap, c.completionStage)) : Serves c d := by
  simp only [Prod.mk.injEq] at h
  obtain ⟨hvalid, hjob, hnb, hreceived, haddr, hmap, hstage⟩ := h
  exact ⟨hvalid, hjob, hnb, hreceived, haddr, fun addr => by rw [hmap],
    fun hd => .inl (hstage ▸ hd)⟩

theorem forall₂_serves_trans {cs ds es : List DTARXContext} (h : List.Forall₂ Serves cs ds)
    (k : List.Forall₂ Serves ds es) : List.Forall₂ Serves cs es := by
  induction h generalizing es with
  | nil => exact k
  | cons hcd _ ih =>
    cases k with
    | cons hde k => exact .cons (hcd.trans hde) (ih k)

namespace RxSide

structure JobsKept (s t : RxSide) : Prop where
  contexts : List.Forall₂ Serves s.contexts t.contexts
  submissions : t.rxJobSubmissionQueue = s.rxJobSubmissionQueue
  global : t.globalRxJobID = s.globalRxJobID

structure JobEnds (i : Nat) (s t : RxSide) : Prop where
  contexts : List.Forall₂ Serves (s.contexts.set i DTARXContext.clear) t.contexts
  submissions : t.rxJobSubmissionQueue = s.rxJobSubmissionQueue
  global : t.globalRxJobID = s.globalRxJobID

theorem JobsKept.of_contexts (h : t.contexts = s.contexts)
    (hsub : t.rxJobSubmissionQueue = s.rxJobSubmissionQueue)
    (hglobal : t.globalRxJobID = s.globalRxJobID) : JobsKept s t :=
  ⟨h ▸ List.forall₂_same.mpr fun c _ => Serves.refl c, hsub, hglobal⟩

theorem JobsKept.refl (s : RxSide) : JobsKept s s := .of_contexts rfl rfl rfl

theorem JobsKept.of_set {i : Nat} (hc : s.contexts[i]? = some c)
    (h : t.contexts = s.contexts.set i d) (hd : Serves c d)
    (hsub : t.rxJobSubmissionQueue = s.rxJobSubmissionQueue)
    (hglobal : t.globalRxJobID = s.globalRxJobID) : JobsKept s t :=
  ⟨h ▸ forall₂_set Serves.refl hc hd, hsub, hglobal⟩

theorem JobsKept.trans (h : JobsKept s t) (k : JobsKept t u) : JobsKept s u :=
  ⟨forall₂_serves_trans h.contexts k.contexts, k.submissions.trans h.submissions,
    k.global.trans h.global⟩

theorem JobEnds.of_set {i : Nat} (h : t.contexts = s.contexts.set i DTARXContext.clear)
    (hsub : t.rxJobSubmissionQueue = s.rxJobSubmissionQueue)
    (hglobal : t.globalRxJobID = s.globalRxJobID) : JobEnds i s t :=
  ⟨h ▸ List.forall₂_same.mpr fun c _ => Serves.refl c, hsub, hglobal⟩

theorem JobEnds.trans {i : Nat} (h : JobEnds i s t) (k : JobsKept t u) : JobEnds i s u :=
  ⟨forall₂_serves_trans h.contexts k.contexts, k.submissions.trans h.submissions,
    k.global.trans h.global⟩

section Requests

theorem sendRequestToNIC_kept {accepts : Bool} {sent : Option CxlPacket}
    (h : s.sendRequestToNIC accepts = .ok (sent, t)) : JobsKept s t := by
  obtain ⟨⟨sent', u⟩, hu, h⟩ := bind_eq_ok.mp h
  obtain ⟨v, hv, h⟩ := bind_eq_ok.mp h
  obtain ⟨_, rfl⟩ := Prod.mk.inj (Except.ok.inj h)
  have hfront : JobsKept s u := by
    rcases sendFront_cases hu with ⟨_, _, rfl⟩ | ⟨_, _, _, rfl⟩ | ⟨_, _, _, _, _, _, rfl⟩ <;>
      exact .of_contexts rfl rfl rfl
  refine hfront.trans ?_
  rcases requestMore_cases hv with ⟨_, rfl, _⟩ | ⟨i, _, c, _, hc, _, rfl⟩
  · exact .of_contexts rfl rfl rfl
  · exact .of_set hc rfl (Serves.of_eq rfl) rfl rfl

theorem recvReqRetry_kept {accepts : Bool} {sent : Option CxlPacket}
    (h : s.recvReqRetry accepts = .ok (sent, t)) : JobsKept s t := by
  obtain ⟨_, _, h⟩ := bind_eq_ok.mp h
  exact { sendRequestToNIC_kept h with }

theorem recvTimingRespfromNIC_jobs {pkt : CxlPacket} (h : s.recvTimingRespfromNIC pkt = .ok t) :
    JobsKept s t ∨ ∃ i c, s.rxContextIDQueue.head? = some i ∧ s.contexts[i]? = some c ∧
      c.valid = true ∧ c.rxJobID = pkt.jobID ∧ pkt.data.any (· != 0) = false ∧ JobEnds i s t := by
  rcases recvTimingRespfromNIC_cases h with
    ⟨rfl, _⟩ | ⟨i, rest, c, hqueue, hc, hvalid, hjob, _, ⟨hzero, rfl⟩ | ⟨_, rfl⟩⟩
  · exact .inl (.of_contexts rfl rfl rfl)
  · exact .inr ⟨i, c, by rw [hqueue]; rfl, hc, hvalid, hjob, hzero, .of_set (set_set ..) rfl rfl⟩
  · refine .inl (.of_set (d := (answered c).countResponse pkt.ddioHeader) hc
      (set_set ..) ?_ rfl rfl)
    unfold DTARXContext.countResponse
    split <;> exact Serves.of_eq rfl

end Requests

section Workers

theorem allocateWorkerFromQueue_kept {i : Nat}
    (h : s.allocateWorkerFromQueue cacheLineSize i = .ok t) : JobsKept s t := by
  rcases allocateWorkerFromQueue_cases h with
    rfl | ⟨_, _, _, c, _, _, hc, ⟨_, _, _, rfl⟩ | ⟨_, rfl⟩⟩
  · exact .refl t
  · exact .of_set hc rfl (Serves.of_eq rfl) rfl rfl
  · exact .of_contexts rfl rfl rfl

theorem ioCacheDone_kept {k : Nat} (h : s.ioCacheDone k = .ok t) : JobsKept s t := by
  rcases ioCacheDone_cases h with ⟨_, _, rfl | ⟨_, c, written, hc, hkeys, rfl⟩⟩
  · exact .of_contexts rfl rfl rfl
  · exact .of_set hc rfl ⟨rfl, rfl, rfl, rfl, rfl, hkeys, .inl⟩ rfl rfl

end Workers

section Completion

theorem enterCompletionStage_serves (h : c.enterCompletionStage = .ok d) : Serves c d := by
  unfold DTARXContext.enterCompletionStage at h
  split at h
  · cases h
    exact Serves.refl c
  · obtain ⟨_, _, h⟩ := bind_eq_ok.mp h
    split at h
    · obtain ⟨done, hdone, rfl⟩ := map_eq_ok.mp h
      refine ⟨rfl, rfl, rfl, rfl, rfl, fun _ => rfl, fun hstage => .inr ?_⟩
      obtain rfl : done = true := hstage
      unfold DTARXContext.allPacketsDMAed at hdone
      split at hdone
      · have hall := all_eq_true.mp (Except.ok.inj hdone)
        intro addr haddr
        rw [beq_iff_eq.mp (hall addr haddr)]
        rfl
      · cases hdone
    · cases h
      exact Serves.refl c

theorem checkRXJobCompletion_jobs {i : Nat} (h : s.checkRXJobCompletion cacheLineSize i = .ok t) :
    JobsKept s t ∨ ∃ c d, s.contexts[i]? = some c ∧ c.valid = true ∧ Serves c d ∧
      d.completionStage = true ∧ JobEnds i s t := by
  obtain ⟨c, hc, h⟩ := bind_eq_ok.mp h
  have hget := context_eq.mp hc
  split at h
  · rename_i hvalid
    obtain ⟨d, hd, h⟩ := bind_eq_ok.mp h
    have hserves := enterCompletionStage_serves hd
    split at h
    · rename_i hstage
      unfold writeCompletion at h
      split at h
      · obtain ⟨_, _, h⟩ := bind_eq_ok.mp h
        obtain ⟨_, _, rfl⟩ := map_eq_ok.mp h
        exact .inl (.of_set hget (set_set ..) (hserves.trans (Serves.of_eq rfl)) rfl rfl)
      · obtain ⟨_, _, h⟩ := bind_eq_ok.mp h
        obtain ⟨_, _, rfl⟩ := map_eq_ok.mp h
        exact .inr ⟨c, d, hget, hvalid, hserves, hstage, .of_set (set_set ..) rfl rfl⟩
    · cases h
      exact .inl (.of_set hget rfl hserves rfl rfl)
  · cases h
    exact .inl (.refl s)

theorem dtaRXStateMachine_jobs (h : s.dtaRXStateMachine cacheLineSize = .ok t) :
    JobsKept s t ∨ ∃ i c d, s.contexts[i]? = some c ∧ c.valid = true ∧ Serves c d ∧
      d.completionStage = true ∧ JobEnds i s t := by
  rcases dtaRXStateMachine_cases h with rfl | ⟨i, _, u, _, _, _, hu, ht⟩
  · exact .inl (.refl t)
  · have hrest : JobsKept u t := { allocateWorkerFromQueue_kept ht with }
    rcases checkRXJobCompletion_jobs hu with hkept | ⟨c, d, hc, hvalid, hd, hstage, hends⟩
    · exact .inl (hkept.trans hrest)
    · exact .inr ⟨i, c, d, hc, hvalid, hd, hstage, hends.trans hrest⟩

end Completion

end RxSide

section Target

variable {contexts : List DTARXContext}

theorem initializationLoop_spec : ∀ {contexts : List DTARXContext} {i : Nat}
    {found r : Option Nat}, initializationLoop contexts i found = .ok r →
    ((∀ c ∈ contexts, c.inInitializationStage = false) ∧ r = found) ∨
      ∃ j c, contexts[j]? = some c ∧ c.inInitializationStage = true ∧ r = some (i + j) ∧
        found = none ∧ ∀ k e, contexts[k]? = some e → e.inInitializationStage = true → k = j := by
  intro contexts
  induction contexts with
  | nil =>
    intro i found r h
    exact .inl ⟨nofun, eq_of_ok h rfl⟩
  | cons c rest ih =>
    intro i found r h
    unfold initializationLoop at h
    split at h
    · rename_i hstage
      obtain ⟨_, hfound, h⟩ := bind_eq_ok.mp h
      obtain ⟨hnone, rfl⟩ | ⟨_, _, _, _, _, hsome, _⟩ := ih h
      · refine .inr
          ⟨0, c, rfl, hstage, rfl, Option.isNone_iff_eq_none.mp (simAssert_eq_ok.mp hfound), ?_⟩
        intro k e hk he
        cases k with
        | zero => rfl
        | succ k => exact absurd (hnone e (mem_of_getElem? hk)) (by simp [he])
      · cases hsome
    · rename_i hstage
      rw [Bool.not_eq_true] at hstage
      obtain ⟨hnone, rfl⟩ | ⟨j, e, hj, he, rfl, hfound, hunique⟩ := ih h
      · exact .inl ⟨forall_mem_cons.mpr ⟨hstage, hnone⟩, rfl⟩
      · refine .inr ⟨j + 1, e, hj, he, by rw [add_assoc, add_comm 1], hfound, ?_⟩
        intro k e' hk he'
        cases k with
        | zero =>
          obtain rfl := Option.some.inj hk
          rw [hstage] at he'
          cases he'
        | succ k => exact congrArg (· + 1) (hunique k e' hk he')

theorem getInitializationStage_none (h : getInitializationStageRXContextID contexts = .ok none) :
    ∀ c ∈ contexts, c.inInitializationStage = false := by
  rcases initializationLoop_spec h with ⟨hnone, _⟩ | ⟨_, _, _, _, hsome, _⟩
  · exact hnone
  · cases hsome

theorem getInitializationStage_some {i : Nat}
    (h : getInitializationStageRXContextID contexts = .ok (some i)) :
    ∃ c, contexts[i]? = some c ∧ c.inInitializationStage = true ∧
      ∀ k e, contexts[k]? = some e → e.inInitializationStage = true → k = i := by
  rcases initializationLoop_spec h with ⟨_, hnone⟩ | ⟨j, c, hj, hc, hsome, _, hunique⟩
  · cases hnone
  · rw [zero_add] at hsome
    obtain rfl := Option.some.inj hsome
    exact ⟨c, hj, hc, hunique⟩

theorem initializationLoop_of_none {found : Option Nat} {i : Nat}
    (h : ∀ c ∈ contexts, c.inInitializationStage = false) :
    initializationLoop contexts i found = .ok found := by
  induction contexts generalizing i with
  | nil => rfl
  | cons c rest ih =>
    rw [forall_mem_cons] at h
    unfold initializationLoop
    rw [h.1]
    exact ih h.2

theorem getParsingTarget_spec {i : Nat} (h : getParsingTargetRXContextID contexts = .ok (some i)) :
    ∃ c, contexts[i]? = some c ∧
      ((getInitializationStageRXContextID contexts = .ok (some i) ∧ c.valid = true ∧
          c.nMbufAddrReceived < c.nbPkts) ∨
        (getInitializationStageRXContextID contexts = .ok none ∧ c.valid = false)) := by
  obtain ⟨stage, hstage, h⟩ := bind_eq_ok.mp h
  cases stage with
  | some j =>
    obtain rfl := Option.some.inj (Except.ok.inj h)
    obtain ⟨c, hc, hinit, _⟩ := getInitializationStage_some hstage
    unfold DTARXContext.inInitializationStage at hinit
    simp only [Bool.and_eq_true, decide_eq_true_eq] at hinit
    exact ⟨c, hc, .inl ⟨hstage, hinit⟩⟩
  | none =>
    obtain ⟨hlt, hfree, _⟩ := List.findIdx?_eq_some_iff_getElem.mp (Except.ok.inj h)
    exact ⟨contexts[i], List.getElem?_eq_getElem hlt, .inr ⟨hstage, by simpa using hfree⟩⟩

end Target

section Parsing

theorem storeMbufAddrs_spec : ∀ {addrs : List Nat} {c : DTARXContext},
    c.storeMbufAddrs addrs = .ok d → c.mbufAddr.length = dtaMaxMbufNum →
    d.mbufAddr.length = dtaMaxMbufNum ∧
      d.mbufAddr.take d.nMbufAddrReceived = c.mbufAddr.take c.nMbufAddrReceived ++ addrs ∧
      d.mbufAddr.drop d.nMbufAddrReceived = c.mbufAddr.drop d.nMbufAddrReceived ∧
      ∀ addr, (d.rxCompleteMap addr).isSome = true →
        addr ∈ addrs ∨ (c.rxCompleteMap addr).isSome = true := by
  intro addrs
  induction addrs with
  | nil =>
    intro c h hsize
    cases h
    exact ⟨hsize, (append_nil _).symm, rfl, fun _ => .inr⟩
  | cons addr rest ih =>
    intro c h hsize
    obtain ⟨u, hu, h⟩ := bind_eq_ok.mp h
    unfold DTARXContext.storeMbufAddr at hu
    split at hu
    · cases hu
      obtain ⟨hlen, htake, hdrop, hkeys⟩ := ih h (by rw [length_set, hsize])
      obtain ⟨_, _, hd⟩ := RxSide.storeMbufAddrs_cases h
      have hreceived : c.nMbufAddrReceived < d.nMbufAddrReceived := by
        rw [hd]
        dsimp only
        omega
      refine ⟨hlen, ?_, ?_, ?_⟩
      · rw [htake]
        rw [take_add_one, take_set_of_le le_rfl, List.getElem?_set_self (by omega)]
        simp
      · rw [hdrop]
        rw [drop_set_of_lt hreceived]
      · intro a ha
        rcases hkeys a ha with hmem | hsome
        · exact .inl (mem_cons_of_mem _ hmem)
        · by_cases heq : a = addr
          · exact .inl (heq ▸ mem_cons_self)
          · dsimp only at hsome
            rw [Function.update_of_ne heq] at hsome
            exact .inr hsome
    · cases hu

theorem continueContext_jobs {i : Nat} {pkt : JobPacket} (h : s.continueContext i pkt c = .ok t) :
    ∃ d, c.parseRest pkt = .ok d ∧ t.contexts = s.contexts.set i d ∧
      t.globalRxJobID = s.globalRxJobID := by
  obtain ⟨d, hd, h⟩ := bind_eq_ok.mp h
  split at h <;> obtain rfl := Except.ok.inj h <;> exact ⟨d, hd, rfl, rfl⟩

theorem openContext_jobs {i : Nat} {pkt : JobPacket}
    (h : s.openContext cacheLineSize i pkt c = .ok t) :
    ∃ d, c.parseFirst (s.globalRxJobID + 1) cacheLineSize pkt = .ok d ∧
      t.contexts = s.contexts.set i d ∧ t.globalRxJobID = s.globalRxJobID + 1 := by
  obtain ⟨d, hd, rfl⟩ := map_eq_ok.mp h
  exact ⟨d, hd, rfl, rfl⟩

/-- The next job packet is parsed into context `k`. -/
structure Parses (s t : RxSide) (pkt : JobPacket) (rest : List JobPacket) (k : Nat)
    (c d : DTARXContext) : Prop where
  queue : s.rxJobSubmissionQueue = pkt :: rest
  submissions : t.rxJobSubmissionQueue = rest
  context : s.contexts[k]? = some c
  contexts : t.contexts = s.contexts.set k d

theorem checkSubmissionQueue_jobs {canScheduleTXJob found : Bool}
    (h : s.checkSubmissionQueue cacheLineSize canScheduleTXJob found = .ok t) :
    RxSide.JobsKept s t ∨ ∃ pkt rest i c d, Parses s t pkt rest i c d ∧
      ((getInitializationStageRXContextID s.contexts = .ok (some i) ∧ c.valid = true ∧
          c.nMbufAddrReceived < c.nbPkts ∧ c.parseRest pkt = .ok d ∧
          t.globalRxJobID = s.globalRxJobID) ∨
        (getInitializationStageRXContextID s.contexts = .ok none ∧ c.valid = false ∧
          c.parseFirst (s.globalRxJobID + 1) cacheLineSize pkt = .ok d ∧
          t.globalRxJobID = s.globalRxJobID + 1)) := by
  rcases RxSide.checkSubmissionQueue_cases h with ⟨_, rfl⟩ | ⟨pkt, rest, u, hqueue, hu, rfl⟩
  · exact .inl (.of_contexts rfl rfl rfl)
  · rcases RxSide.parse_cases hu with ⟨hfalse, _⟩ | ⟨i, c, htarget, _, hc, hparse⟩
    · cases hfalse
    · obtain ⟨c', hc', hstage⟩ := getParsingTarget_spec htarget
      obtain rfl := Option.mem_unique hc hc'
      refine .inr ⟨pkt, rest, i, c, ?_⟩
      rcases hparse with ⟨hvalid, hu⟩ | ⟨hfree, hu⟩
      · obtain ⟨d, hd, hcontexts, hglobal⟩ := continueContext_jobs hu
        rcases hstage with ⟨hstage, _, hlt⟩ | ⟨_, hfree⟩
        · exact ⟨d, ⟨hqueue, rfl, hc, hcontexts⟩, .inl ⟨hstage, hvalid, hlt, hd, hglobal⟩⟩
        · rw [hvalid] at hfree
          cases hfree
      · obtain ⟨d, hd, hcontexts, hglobal⟩ := openContext_jobs hu
        rcases hstage with ⟨_, hvalid, _⟩ | ⟨hstage, _⟩
        · rw [hvalid] at hfree
          cases hfree
        · exact ⟨d, ⟨hqueue, rfl, hc, hcontexts⟩, .inr ⟨hstage, hfree, hd, hglobal⟩⟩

end Parsing

end Gem5.DTA
