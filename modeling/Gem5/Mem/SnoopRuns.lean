import Gem5.Mem.SnoopTracking

/-!
# Runs of the snoop filter

The requested bits are the requests of caches that are not answered, a rejected request
changes nothing, and every copy of a cache has its holder bit.
-/

namespace Gem5.Mem

open List
open Bool hiding true_and

open BitVec SnoopFilterCache

namespace SnoopRun

open SnoopFilter

variable {ports snooped : List ResponsePort} {s t : SnoopRun} {pkt : MemPacket}
  {port rspPort reqPort p : ResponsePort} {line : BitVec 64}

structure Inv (ports : List ResponsePort) (s : SnoopRun) : Prop where
  tracked : s.filter.ports.Tracked ports
  clean : s.filter.cachedLocations.Clean
  requested : ∀ line, ∀ p ∈ s.filter.ports.cpuSidePorts,
    (s.filter.cachedLocations.itemAt line).requested.getLsbD (s.filter.ports.localId p) = true ↔
      (line, p) ∈ s.pending
  nodup : s.pending.Nodup
  pending : ∀ line p, (line, p) ∈ s.pending → p ∈ s.filter.ports.cpuSidePorts
  held : ∀ line p, (line, p) ∈ s.copies → p ∈ s.filter.ports.cpuSidePorts ∧
    (s.filter.cachedLocations.itemAt line).holder.getLsbD (s.filter.ports.localId p) = true

variable {item : SnoopItem} {copies : List (BitVec 64 × ResponsePort)}

theorem Inv.withItem {pending copies : List (BitVec 64 × ResponsePort)}
    (h : Inv ports s) (hrequested : ∀ p ∈ s.filter.ports.cpuSidePorts,
      item.requested.getLsbD (s.filter.ports.localId p) = true ↔ (s.filter.lineOf pkt, p) ∈ pending)
    (hother : ∀ l p, l ≠ s.filter.lineOf pkt → ((l, p) ∈ pending ↔ (l, p) ∈ s.pending))
    (hnodup : pending.Nodup)
    (hpending : ∀ p, (s.filter.lineOf pkt, p) ∈ pending → p ∈ s.filter.ports.cpuSidePorts)
    (hheld : ∀ p, (s.filter.lineOf pkt, p) ∈ copies → p ∈ s.filter.ports.cpuSidePorts ∧
      item.holder.getLsbD (s.filter.ports.localId p) = true)
    (hcopies : ∀ l p, l ≠ s.filter.lineOf pkt → (l, p) ∈ copies → (l, p) ∈ s.copies) :
    Inv ports ⟨s.filter.withItem pkt item, pending, copies⟩ := by
  have hitem : ∀ l, (s.filter.withItem pkt item).cachedLocations.itemAt l =
      if l = s.filter.lineOf pkt then item else s.filter.cachedLocations.itemAt l := fun l =>
      itemAt_store
  refine ⟨h.tracked, h.clean.store, fun l p hp => ?_, hnodup, fun l p hmem => ?_,
    fun l p hmem => ?_⟩
  · rw [hitem]
    by_cases hl : l = s.filter.lineOf pkt
    · rw [if_pos hl, hl]
      exact hrequested p hp
    · rw [if_neg hl]
      exact (h.requested l p hp).trans (hother l p hl).symm
  · by_cases hl : l = s.filter.lineOf pkt
    · exact hpending p (hl ▸ hmem)
    · exact h.pending l p ((hother l p hl).mp hmem)
  · rw [hitem]
    by_cases hl : l = s.filter.lineOf pkt
    · rw [if_pos hl]
      exact hheld p (hl ▸ hmem)
    · rw [if_neg hl]
      exact h.held l p (hcopies l p hl hmem)

theorem Inv.fewer (h : Inv ports s)
    (hsub : ∀ c ∈ copies, c ∈ s.copies) : Inv ports ⟨s.filter, s.pending, copies⟩ :=
  { h with held := fun line p hmem => h.held line p (hsub (line, p) hmem) }

theorem Inv.scratch {f : SnoopFilter} {pending copies : List (BitVec 64 × ResponsePort)}
    (h : Inv ports ⟨f, pending, copies⟩) (it : Option (BitVec 64)) (retryItem : SnoopItem) :
    Inv ports ⟨{ f with it := it, retryItem := retryItem }, pending, copies⟩ :=
  ⟨h.tracked, h.clean, h.requested, h.nodup, h.pending, h.held⟩

section

variable (h : Inv ports s)
include h

theorem Inv.not_pending (hsnoop : port.isSnooping = false) : (line, port) ∉ s.pending := by
  intro hmem
  rw [h.tracked.snooping port (h.pending line port hmem)] at hsnoop
  cases hsnoop

theorem mem_erase_pending {c : BitVec 64 × ResponsePort} :
    c ∈ s.pending.erase (line, port) ↔ c ≠ (line, port) ∧ c ∈ s.pending := h.nodup.mem_erase_iff

theorem Inv.cleared_bit (hp : p ∈ s.filter.ports.cpuSidePorts)
    (hport : port ∈ ports) (mask : BitVec 256) :
    (mask &&& ~~~s.filter.ports.portToMask port).getLsbD (s.filter.ports.localId p) = true ↔
      p ≠ port ∧ mask.getLsbD (s.filter.ports.localId p) = true := by
  rw [getLsbD_and, getLsbD_not, h.tracked.getLsbD_portToMask hp hport,
    decide_eq_true (h.tracked.lt p hp), Bool.true_and, and_eq_true, not_eq_true',
    decide_eq_false_iff_not]
  exact and_comm

theorem Inv.answer (hport : port ∈ ports)
    (hitem : item.requested = (s.filter.itemOf pkt).requested &&& ~~~s.filter.ports.portToMask port)
    (hheld : ∀ p, (s.filter.lineOf pkt, p) ∈ copies → p ∈ s.filter.ports.cpuSidePorts ∧
      item.holder.getLsbD (s.filter.ports.localId p) = true)
    (hcopies : ∀ l p, l ≠ s.filter.lineOf pkt → (l, p) ∈ copies → (l, p) ∈ s.copies) :
    Inv ports
      ⟨s.filter.withItem pkt item, s.pending.erase (s.filter.lineOf pkt, port), copies⟩ := by
  refine h.withItem (fun p hp => ?_) (fun l p hl => ?_) (h.nodup.erase _) (fun p hmem => ?_)
    hheld hcopies
  · rw [hitem, h.cleared_bit hp hport, mem_erase_pending h, ← h.requested _ p hp, ne_eq, ne_eq,
      Prod.mk.injEq, eq_self, true_and]
    rfl
  · rw [mem_erase_pending h, ne_eq, Prod.mk.injEq]
    tauto
  · exact h.pending _ p ((mem_erase_pending h).mp hmem).2

theorem accepted_inv (hport : port ∈ ports) (hmarked : s.filter.marked pkt port = .ok item)
    (hcopies : ∀ c ∈ copies, c ∈ s.copies)
    (hlost : pkt.isEviction = true → pkt.isBlockCached = false →
      (s.filter.lineOf pkt, port) ∉ copies) : Inv ports ⟨s.filter.withItem pkt item,
      if expectsAnswer pkt port then (s.filter.lineOf pkt, port) :: s.pending else s.pending,
      copies⟩ := by
  have hreq := h.requested (s.filter.lineOf pkt)
  have hheld := h.held (s.filter.lineOf pkt)
  have hsame : item.requested = (s.filter.itemOf pkt).requested → expectsAnswer pkt port = false →
      (∀ p, (s.filter.lineOf pkt, p) ∈ copies →
        item.holder.getLsbD (s.filter.ports.localId p) = true) →
      Inv ports ⟨s.filter.withItem pkt item, if expectsAnswer pkt port then
        (s.filter.lineOf pkt, port) :: s.pending else s.pending, copies⟩ := by
    intro hitem hno hholder
    rw [hno]
    refine h.withItem (fun p hp => ?_) (fun _ _ _ => Iff.rfl) h.nodup (h.pending _)
      (fun p hmem => ⟨(hheld p (hcopies _ hmem)).1, hholder p hmem⟩) fun l p _ => hcopies (l, p)
    rw [hitem]
    exact hreq p hp
  unfold marked newItem at hmarked
  cases halloc : allocates pkt port with
  | false =>
    rw [halloc] at hmarked
    cases hmarked
    exact hsame rfl (by rw [expectsAnswer, halloc]; rfl) fun p hmem => (hheld p (hcopies _ hmem)).2
  | true =>
    rw [halloc] at hmarked
    have hexpects : expectsAnswer pkt port = (pkt.needsResponse && !pkt.cacheResponding) := by
      rw [expectsAnswer, halloc, Bool.true_and]
    have hcps : port ∈ s.filter.ports.cpuSidePorts := by
      refine h.tracked.mem port hport ?_
      rw [allocates, and_eq_true, and_eq_true] at halloc
      exact halloc.1.2
    rcases mark_spec hmarked with ⟨hyes, hfree, rfl⟩ | ⟨hno, rfl | ⟨hevict, hcached, rfl⟩⟩
    · -- the port had no request of this line
      have hnew : (s.filter.lineOf pkt, port) ∉ s.pending := by
        rw [← hreq port hcps]
        exact Bool.eq_false_iff.mp ((h.tracked.and_portToMask hcps).mp hfree)
      rw [hexpects, hyes, if_pos rfl]
      refine h.withItem (fun p hp => ?_) (fun l p hl => ?_) (nodup_cons.mpr ⟨hnew, h.nodup⟩)
        (fun p hmem => ?_) (fun p hmem => hheld p (hcopies _ hmem)) fun l p _ => hcopies (l, p)
      · rw [getLsbD_or, h.tracked.getLsbD_portToMask hp hport, or_eq_true,
          decide_eq_true_eq, mem_cons, Prod.mk.injEq]
        exact (or_congr_left (hreq p hp)).trans (by tauto)
      · rw [mem_cons, Prod.mk.injEq]
        tauto
      · rcases mem_cons.mp hmem with heq | hmem
        · cases heq
          exact hcps
        · exact h.pending _ p hmem
    · exact hsame rfl (hexpects.trans hno) fun p hmem => (hheld p (hcopies _ hmem)).2
    · refine hsame rfl (hexpects.trans hno) fun p hmem => ?_
      obtain ⟨hp, hbit⟩ := hheld p (hcopies _ hmem)
      have hne : p ≠ port := fun heq => hlost hevict hcached (heq ▸ hmem)
      exact (h.cleared_bit hp hport _).mpr ⟨hne, hbit⟩

theorem request_inv {willRetry : Bool} (hport : port ∈ ports)
    (hstep : s.step (.request pkt port willRetry) = .ok t) : Inv ports t := by
  obtain ⟨⟨snooped, f₁⟩, hlookup, hstep⟩ := bind_eq_ok.mp hstep
  obtain ⟨f₂, hfinish, hstep⟩ := bind_eq_ok.mp hstep
  cases hstep
  obtain ⟨item, hmarked, hf⟩ := request_spec h.clean hlookup hfinish
  have hsub : ∀ c ∈ s.copies.filter (afterRequest pkt port willRetry (s.filter.lineOf pkt) snooped),
      c ∈ s.copies := fun c hc => (mem_filter.mp hc).1
  rw [hf]
  cases willRetry with
  | true =>
    rw [if_pos rfl, withItem_self h.clean, Bool.not_true, Bool.and_false]
    exact (h.fewer hsub).scratch _ _
  | false =>
    rw [Bool.not_false, Bool.and_true]
    refine (accepted_inv h hport hmarked hsub fun hevict hcached hmem => ?_).scratch _ _
    have hkept := (mem_filter.mp hmem).2
    simp [afterRequest, hevict, hcached] at hkept

theorem snoop_inv (hstep : s.step (.snoop pkt) = .ok t) : Inv ports t := by
  obtain ⟨⟨snooped, f₁⟩, hlookup, hstep⟩ := bind_eq_ok.mp hstep
  cases hstep
  obtain ⟨hsnooped, hf⟩ := lookupSnoop_spec h.clean hlookup
  have hsub : ∀ c ∈ s.copies.filter (fun c =>
      !(c.1 == s.filter.lineOf pkt && pkt.isInvalidate && snooped.contains c.2)), c ∈ s.copies :=
    fun c hc => (mem_filter.mp hc).1
  rw [hf]
  split
  · -- the holders are cleared, and all of them have been snooped
    rename_i hclear
    obtain ⟨hinv, _⟩ := (and_eq_true _ _).mp hclear
    refine h.withItem (h.requested _) (fun _ _ _ => Iff.rfl) h.nodup (h.pending _)
      (fun p hmem => ?_)
      fun l p _ => hsub (l, p)
    obtain ⟨hp, hbit⟩ := h.held _ p (hsub _ hmem)
    have hin : p ∈ snooped := by
      rw [hsnooped]
      refine h.tracked.mem_maskToPortList.mpr ⟨hp, ?_⟩
      rw [getLsbD_or]
      exact (or_eq_true _ _).mpr (.inl hbit)
    have hkept := (mem_filter.mp hmem).2
    simp [hinv, hin] at hkept
  · rw [withItem_self h.clean]
    exact h.fewer hsub

theorem snoopResponse_inv (hreq : reqPort ∈ ports)
    (hstep : s.step (.snoopResponse pkt rspPort reqPort) = .ok t) : Inv ports t := by
  obtain ⟨f₁, hcall, hstep⟩ := bind_eq_ok.mp hstep
  cases hstep
  rcases updateSnoopResponse_spec hcall with ⟨hskip, rfl⟩ | ⟨hrecord, hf⟩
  · rw [afterSnoopResponse]
    split
    · exact h
    · rename_i hcache
      have hsnoop : reqPort.isSnooping = false := by simpa [hcache] using hskip
      rw [erase_of_not_mem (h.not_pending hsnoop)]
      exact h
  · obtain ⟨hcache, hsnoop⟩ := Bool.or_eq_false_iff.mp hrecord
    have hcps := h.tracked.mem reqPort hreq (by simpa using hsnoop)
    rw [hf, hcache, afterSnoopResponse, if_neg (Bool.eq_false_iff.mp hrecord)]
    refine h.answer hreq rfl (fun p hmem => ?_) fun l p hl hmem => ?_
    · rw [getLsbD_or]
      rcases mem_cons.mp hmem with heq | hmem
      · cases heq
        rw [h.tracked.getLsbD_portToMask hcps hreq, decide_eq_true rfl, Bool.or_true]
        exact ⟨hcps, rfl⟩
      · cases hsharers : pkt.hasSharers with
        | true =>
          rw [hsharers] at hmem
          obtain ⟨hp, hbit⟩ := h.held _ p hmem
          exact ⟨hp, (or_eq_true _ _).mpr (.inl hbit)⟩
        | false =>
          rw [hsharers] at hmem
          have hne := (mem_filter.mp hmem).2
          simp at hne
    · rcases mem_cons.mp hmem with heq | hmem
      · cases heq
        exact absurd rfl hl
      · split at hmem
        · exact hmem
        · exact (mem_filter.mp hmem).1

theorem snoopForward_inv (hstep : s.step (.snoopForward pkt) = .ok t) : Inv ports t := by
  obtain ⟨f₁, hcall, hstep⟩ := bind_eq_ok.mp hstep
  cases hstep
  rw [updateSnoopForward_spec h.clean hcall]
  cases pkt.hasSharers with
  | true =>
    rw [if_pos rfl, withItem_self h.clean]
    exact h
  | false =>
    refine h.withItem (h.requested _) (fun _ _ _ => Iff.rfl) h.nodup (h.pending _)
      (fun p hmem => ?_)
      fun l p _ hmem => (mem_filter.mp hmem).1
    have hne := (mem_filter.mp hmem).2
    simp at hne

theorem response_inv (hport : port ∈ ports)
    (hstep : s.step (.response pkt port) = .ok t) : Inv ports t := by
  obtain ⟨f₁, hcall, hstep⟩ := bind_eq_ok.mp hstep
  cases hstep
  rcases updateResponse_spec hcall with ⟨hskip, rfl⟩ | ⟨hrecord, hbit, hf⟩
  · -- nothing is recorded, and no request was pending
    by_cases hcache : pkt.isUncacheable = true
    · rw [afterResponse, hcache, Bool.true_or, if_pos rfl]
      exact h
    · have hnot : (s.filter.lineOf pkt, port) ∉ s.pending := by
        rcases hskip with hskip | hnull
        · exact h.not_pending (by simpa [hcache] using hskip)
        · intro hmem
          have hset := (h.requested _ port (h.pending _ port hmem)).mpr hmem
          rw [← itemOf, hnull] at hset
          simp [SnoopItem.null] at hset
      rw [if_neg hcache, erase_of_not_mem hnot, afterResponse, if_pos (by simp [hnot])]
      exact h
  · obtain ⟨hcache, hsnoop⟩ := Bool.or_eq_false_iff.mp hrecord
    have hcps := h.tracked.mem port hport (by simpa using hsnoop)
    have hpend : (s.filter.lineOf pkt, port) ∈ s.pending := by
      refine (h.requested _ port hcps).mp ?_
      by_contra hno
      exact hbit ((h.tracked.and_portToMask hcps).mpr (Bool.eq_false_iff.mpr hno))
    have hself := h.tracked.getLsbD_portToMask hcps hport
    rw [hf, hcache, if_neg Bool.false_ne_true, afterResponse, if_neg (by simp [hcache, hpend])]
    refine h.answer hport rfl (fun p hmem => ?_) fun l p hl hmem => ?_
    · rw [answered]
      cases hm : pkt.isCacheMaintenance with
      | false =>
        rw [hm, Bool.not_false, if_pos rfl] at hmem
        rw [if_neg Bool.false_ne_true, getLsbD_or]
        rcases mem_cons.mp hmem with heq | hmem
        · cases heq
          rw [hself, decide_eq_true rfl, Bool.or_true]
          exact ⟨hcps, rfl⟩
        · obtain ⟨hp, hbit⟩ := h.held _ p hmem
          exact ⟨hp, (or_eq_true _ _).mpr (.inl hbit)⟩
      | true =>
        rw [hm] at hmem
        rw [if_pos rfl]
        cases hinv : pkt.isInvalidate with
        | false =>
          rw [hinv] at hmem
          exact h.held _ p hmem
        | true =>
          rw [hinv, if_pos rfl] at hmem
          obtain ⟨hmem, hne⟩ := mem_filter.mp hmem
          obtain ⟨hp, hbit⟩ := h.held _ p hmem
          have hne : p ≠ port := fun heq => by simp [heq] at hne
          rw [if_pos rfl, h.cleared_bit hp hport]
          exact ⟨hp, hne, hbit⟩
    · split at hmem
      · rcases mem_cons.mp hmem with heq | hmem
        · cases heq
          exact absurd rfl hl
        · exact hmem
      · split at hmem
        · exact (mem_filter.mp hmem).1
        · exact hmem

theorem step_inv {a : SnoopOp} (ha : s.Known ports a) (hstep : s.step a = .ok t) : Inv ports t := by
  cases a with
  | request pkt port willRetry => exact request_inv h ha hstep
  | snoop pkt => exact snoop_inv h hstep
  | snoopResponse pkt rspPort reqPort => exact snoopResponse_inv h ha.2 hstep
  | snoopForward pkt => exact snoopForward_inv h hstep
  | response pkt port => exact response_inv h ha hstep

end

theorem Fresh.inv (h : Fresh ports s) : Inv ports s := by
  have hitem : ∀ line, s.filter.cachedLocations.itemAt line = .null := by
    intro line
    rw [h.cachedLocations]
    rfl
  refine ⟨SnoopPorts.setCPUSidePorts_tracked h.ids h.nodup h.ports, ?_, fun line p _ => ?_, ?_,
    fun line p hmem => ?_, fun line p hmem => ?_⟩
  · intro line item hl
    rw [h.cachedLocations] at hl
    cases hl
  · rw [hitem, h.pending]
    simp [SnoopItem.null]
  · rw [h.pending]
    exact nodup_nil
  · rw [h.pending] at hmem
    cases hmem
  · rw [h.copies] at hmem
    cases hmem

theorem Fresh.inv_of_reach (hs : Fresh ports s) (hr : Reach step (Known ports) s t) : Inv ports t :=
  hr.invariant hs.inv fun h ha hstep => step_inv h ha hstep

theorem destination_of_destMask (h : t.filter.ports.Tracked ports)
    (hp : p ∈ t.filter.ports.cpuSidePorts)
    (hbit : (t.filter.destMask pkt).getLsbD (t.filter.ports.localId p) = true) :
    pkt.isPrefetchHint = true ∧ pkt.ddioPrefetchDestination = t.filter.ports.localId p := by
  unfold destMask at hbit
  split at hbit
  · rename_i hhint
    simp only [and_eq_true, decide_eq_true_eq] at hhint
    rw [SnoopPorts.getLsbD_one_shiftLeft (h.lt p hp), decide_eq_true_eq] at hbit
    exact ⟨hhint.1.1, by omega⟩
  · rw [show (0 : BitVec 256).getLsbD _ = false from getLsbD_zero] at hbit
    cases hbit

/-- In every run no null entry is stored, a request that will be sent again leaves the entries
as they were, and the requested bits are the requests of caches that expect an answer. -/
theorem requests_tracked (hs : Fresh ports s) (hr : Reach step (Known ports) s t) :
    (∀ line item, t.filter.cachedLocations.lookup line = some item →
      item.requested ||| item.holder ≠ 0) ∧
    (∀ pkt port snooped f₁ f₂, t.filter.lookupRequest pkt port = .ok (snooped, f₁) →
      f₁.finishRequest true pkt.addr pkt.isSecure = .ok f₂ →
      f₂ = { t.filter with it := f₂.it, retryItem := f₂.retryItem }) ∧
    ∀ line, ∀ p ∈ ports, p.isSnooping = true →
      ((t.filter.cachedLocations.itemAt line).requested &&& t.filter.ports.portToMask p ≠ 0 ↔
        (line, p) ∈ t.pending) := by
  have h := hs.inv_of_reach hr
  refine ⟨fun line item hl hzero => ?_, fun pkt port snooped f₁ f₂ hl hf => ?_,
    fun line p hp hsnoop => ?_⟩
  · have hnull := h.clean line item hl
    rw [SnoopItem.isNull, hzero] at hnull
    cases hnull
  · obtain ⟨item, _, hf₂⟩ := request_spec h.clean hl hf
    rw [if_pos rfl, withItem_self h.clean] at hf₂
    exact hf₂
  · have hcps := h.tracked.mem p hp hsnoop
    rw [ne_eq, h.tracked.and_portToMask hcps, not_eq_false]
    exact h.requested line p hcps

/-- In every run each copy has its holder bit, so that snoops and requests reach every holder
but the requester. What else is snooped has a request of the line, or is the destination of a
prefetch hint. -/
theorem holders_snooped (hs : Fresh ports s) (hr : Reach step (Known ports) s t) :
    (∀ line p, (line, p) ∈ t.copies →
      (t.filter.cachedLocations.itemAt line).holder &&& t.filter.ports.portToMask p ≠ 0) ∧
    (∀ pkt snooped f, t.filter.lookupSnoop pkt = .ok (snooped, f) →
      ∀ p, (t.filter.lineOf pkt, p) ∈ t.copies → p ∈ snooped) ∧
    ∀ pkt, ∀ port ∈ ports, ∀ snooped f, t.filter.lookupRequest pkt port = .ok (snooped, f) →
      (∀ p, (t.filter.lineOf pkt, p) ∈ t.copies → p ≠ port → p ∈ snooped) ∧
      ∀ p ∈ snooped, p ≠ port ∧
        ((t.filter.itemOf pkt).holder ||| (t.filter.itemOf pkt).requested) &&&
          t.filter.ports.portToMask p ≠ 0 ∨
        pkt.isPrefetchHint = true ∧ pkt.ddioPrefetchDestination = t.filter.ports.localId p := by
  have h := hs.inv_of_reach hr
  have hheld : ∀ {line p}, (line, p) ∈ t.copies → ((t.filter.cachedLocations.itemAt line).holder |||
      (t.filter.cachedLocations.itemAt line).requested).getLsbD (t.filter.ports.localId p) =
      true := by
    intro line p hmem
    rw [getLsbD_or]
    exact (or_eq_true _ _).mpr (.inl (h.held line p hmem).2)
  refine ⟨fun line p hmem => ?_, fun pkt snooped f hl p hmem => ?_,
    fun pkt port hport snooped f hl => ?_⟩
  · obtain ⟨hp, hbit⟩ := h.held line p hmem
    rw [ne_eq, h.tracked.and_portToMask hp, not_eq_false]
    exact hbit
  · rw [(lookupSnoop_spec h.clean hl).1]
    exact h.tracked.mem_maskToPortList.mpr ⟨(h.held _ p hmem).1, hheld hmem⟩
  · obtain ⟨hall, honly⟩ := lookupRequest_snooped h.tracked hport hl
    refine ⟨fun p hmem hne => hall p (h.held _ p hmem).1 hne (hheld hmem), fun p hp => ?_⟩
    obtain ⟨hcps, hcase⟩ := honly p hp
    rcases hcase with ⟨hne, hbit⟩ | hdest
    · refine .inl ⟨hne, ?_⟩
      rw [ne_eq, h.tracked.and_portToMask hcps, not_eq_false]
      exact hbit
    · exact .inr (destination_of_destMask h.tracked hcps hdest)

section Examples

def demoPorts : List ResponsePort := [⟨0, true⟩, ⟨1, true⟩]

def demoStart : SnoopRun :=
  ⟨⟨true, 64, 16, ⟨demoPorts, [some 0, some 1]⟩, ∅, none, .null⟩, [], []⟩

theorem demoStart_fresh : Fresh demoPorts demoStart := ⟨by decide, by decide, rfl, rfl, rfl, rfl⟩

/-- A cacheable packet for the line `0x40`. -/
def demoPacket (cmd : MemCmd) : MemPacket :=
  ⟨0x40, cmd, false, false, false, false, false, false, false, -1, false, false, false⟩

def demoOps : List SnoopOp :=
  [.request (demoPacket .readSharedReq) ⟨0, true⟩ false, .response (demoPacket .readResp) ⟨0, true⟩,
    .request (demoPacket .readExReq) ⟨1, true⟩ true,
    .request (demoPacket .readExReq) ⟨1, true⟩ false]

theorem requests_tracked_two_ports : ∃ t, Reach step (Known demoPorts) demoStart t ∧
    t.pending = [(0x40, ⟨1, true⟩)] ∧
    (t.filter.cachedLocations.itemAt 0x40).requested &&&
      t.filter.ports.portToMask ⟨1, true⟩ ≠ 0 := by
  obtain ⟨t, ht, hpending⟩ := Reach.exists_of_runFrom step (Known demoPorts) demoStart demoOps
    (fun t => t.pending = [(0x40, ⟨1, true⟩)]) (by decide +kernel)
  refine ⟨t, ht, hpending, ?_⟩
  refine ((requests_tracked demoStart_fresh ht).2.2 0x40 ⟨1, true⟩ (by decide) rfl).mpr ?_
  rw [hpending]
  exact mem_singleton_self _

/-- A request that needs a response is accepted without a requested bit if a cache above the
port has promised to respond. -/
theorem promised_request_unmarked : ∃ t u, Reach step (Known demoPorts) demoStart t ∧
    (demoPacket .readExReq).needsResponse = true ∧ (demoPacket .readExReq).isUncacheable = false ∧
    t.step (.request { demoPacket .readExReq with cacheResponding := true } ⟨0, true⟩ false) =
      .ok u ∧
    (u.filter.cachedLocations.itemAt 0x40).requested = 0 := by
  obtain ⟨t, ht, hp⟩ := Reach.exists_of_runFrom step (Known demoPorts) demoStart (demoOps.take 2)
    (fun t => okAnd (t.step
      (.request { demoPacket .readExReq with cacheResponding := true } ⟨0, true⟩ false))
      fun u => (u.filter.cachedLocations.itemAt 0x40).requested == 0) (by decide +kernel)
  obtain ⟨u, hu, hzero⟩ := okAnd_iff.mp hp
  exact ⟨t, u, ht, by decide, rfl, hu, beq_iff_eq.mp hzero⟩

theorem holders_snooped_two_ports : ∃ t, Reach step (Known demoPorts) demoStart t ∧
    (0x40, ⟨0, true⟩) ∈ t.copies ∧
    ∀ snooped f, t.filter.lookupRequest (demoPacket .readExReq) ⟨1, true⟩ = .ok (snooped, f) →
      ⟨0, true⟩ ∈ snooped := by
  obtain ⟨t, ht, hp⟩ := Reach.exists_of_runFrom step (Known demoPorts) demoStart (demoOps.take 2)
    (fun t => t.copies = [(0x40, ⟨0, true⟩)] ∧ t.filter.lineOf (demoPacket .readExReq) = 0x40)
    (by decide +kernel)
  have hmem : (0x40, ⟨0, true⟩) ∈ t.copies := by
    rw [hp.1]
    exact mem_singleton_self _
  refine ⟨t, ht, hmem, fun snooped f hl => ?_⟩
  exact ((holders_snooped demoStart_fresh ht).2.2 _ ⟨1, true⟩ (by decide) snooped f hl).1 ⟨0, true⟩
    (by rw [hp.2]; exact hmem) (by decide)

/-- A prefetch hint for the port it comes from snoops that port. And the response of an
invalidating cache maintenance request takes the holder bit of a port that keeps its copy if
only evictions, snoops and snoop responses take copies. -/
theorem hint_snoops_requester :
    (∃ t snooped f, Reach step (Known demoPorts) demoStart t ∧
      t.filter.lookupRequest { demoPacket .writebackDirty with
        isPrefetchHint := true, ddioPrefetchDestination := 0 } ⟨0, true⟩ = .ok (snooped, f) ∧
      ⟨0, true⟩ ∈ snooped) ∧
    ∃ t u, Reach step (Known demoPorts) demoStart t ∧ (0x40, ⟨0, true⟩) ∈ t.copies ∧
      t.step (.response { demoPacket .cleanInvalidResp with isCacheInvalidate := true } ⟨0, true⟩) =
      .ok u ∧
      (u.filter.cachedLocations.itemAt 0x40).holder = 0 := by
  constructor
  · obtain ⟨t, ht, hp⟩ := Reach.exists_of_runFrom step (Known demoPorts) demoStart (demoOps.take 2)
      (fun t => okAnd (t.filter.lookupRequest { demoPacket .writebackDirty with
        isPrefetchHint := true, ddioPrefetchDestination := 0 } ⟨0, true⟩)
        fun r => r.1.contains ⟨0, true⟩) (by decide +kernel)
    obtain ⟨⟨snooped, f⟩, hl, hmem⟩ := okAnd_iff.mp hp
    exact ⟨t, snooped, f, ht, hl, contains_iff_mem.mp hmem⟩
  · obtain ⟨t, ht, hp⟩ := Reach.exists_of_runFrom step (Known demoPorts) demoStart
      (demoOps.take 2 ++ [.request { demoPacket .cleanInvalidReq with isCacheInvalidate := true }
        ⟨0, true⟩ false])
      (fun t => t.copies.contains (0x40, ⟨0, true⟩) && okAnd (t.step
        (.response { demoPacket .cleanInvalidResp with isCacheInvalidate := true } ⟨0, true⟩))
        fun u => (u.filter.cachedLocations.itemAt 0x40).holder == 0) (by decide +kernel)
    obtain ⟨hmem, hp⟩ := (and_eq_true _ _).mp hp
    obtain ⟨u, hu, hzero⟩ := okAnd_iff.mp hp
    exact ⟨t, u, ht, contains_iff_mem.mp hmem, hu, beq_iff_eq.mp hzero⟩

end Examples

end SnoopRun

end Gem5.Mem
