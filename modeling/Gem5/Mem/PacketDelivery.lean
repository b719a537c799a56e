import Gem5.Mem.PacketQueue

/-!
# Delivery of queued packets

The event is never earlier than the front packet, so a packet is sent only when it is
ready, and there is an event whenever a packet waits for nothing but its tick. Ticks are
below `maxTick`, which stands for "no packet".
-/

namespace Gem5.Mem

open List BackInsert Bool

namespace PacketQueue

variable {q q' : PacketQueue} {dp : DeferredPacket} {rest : List DeferredPacket} {pkt : Packet}
  {time : Nat}

structure Timed (q : PacketQueue) : Prop where
  now : q.curTick < maxTick
  ticks : ∀ dp ∈ q.transmitList, dp.tick < maxTick
  event : ∀ e, q.sendEvent = some e → q.waitingOnRetry = false ∧ q.curTick ≤ e ∧
    ∃ dp rest, q.transmitList = dp :: rest ∧ dp.tick ≤ e ∧ e ≤ max dp.tick (q.curTick + 1)
  refused : q.waitingOnRetry = true → ∃ dp rest, q.transmitList = dp :: rest ∧ dp.tick ≤ q.curTick

def Awake (q : PacketQueue) : Prop :=
  q.transmitList ≠ [] → q.waitingOnRetry = true ∨ q.sendEvent ≠ none

structure SameMode (q q' : PacketQueue) : Prop where
  curTick : q'.curTick = q.curTick
  waitingOnRetry : q'.waitingOnRetry = q.waitingOnRetry
  forceOrder : q'.forceOrder = q.forceOrder

theorem SameMode.refl (q : PacketQueue) : SameMode q q := ⟨rfl, rfl, rfl⟩

theorem SameMode.trans {q'' : PacketQueue} (h : SameMode q q') (h' : SameMode q' q'') :
    SameMode q q'' :=
  ⟨h'.curTick.trans h.curTick, h'.waitingOnRetry.trans h.waitingOnRetry,
    h'.forceOrder.trans h.forceOrder⟩

theorem schedSendEvent_front (hnow : q.curTick < maxTick) (htime : time < maxTick)
    (hwait : q.waitingOnRetry = false)
    (hold : ∀ e, q.sendEvent = some e → q.curTick ≤ e ∧ time ≤ e) :
    ∃ q', q.schedSendEvent time = .ok q' ∧ q'.transmitList = q.transmitList ∧ SameMode q q' ∧
      q'.Awake ∧ ∀ e, q'.sendEvent = some e →
        q.curTick ≤ e ∧ time ≤ e ∧ e ≤ max time (q.curTick + 1) := by
  have hnext : (q.curTick + 1) % 2 ^ 64 = q.curTick + 1 := by
    apply Nat.mod_eq_of_lt
    unfold maxTick at hnow
    omega
  unfold schedSendEvent
  rw [hwait, if_pos (ne_of_lt htime), hnext]
  have hsched : q.schedule (max time (q.curTick + 1)) =
      .ok { q with sendEvent := some (max time (q.curTick + 1)) } := by
    unfold schedule
    rw [simAssert_of (by rw [decide_eq_true_eq]; omega)]
    rfl
  have hset : ∃ q', q.schedule (max time (q.curTick + 1)) = .ok q' ∧
      q'.transmitList = q.transmitList ∧ SameMode q q' ∧ q'.Awake ∧ ∀ e, q'.sendEvent = some e →
        q.curTick ≤ e ∧ time ≤ e ∧ e ≤ max time (q.curTick + 1) := by
    refine ⟨_, hsched, rfl, ⟨rfl, rfl, rfl⟩, fun _ => .inr (Option.some_ne_none _), ?_⟩
    intro e he
    cases he
    omega
  cases hevent : q.sendEvent with
  | none => exact hset
  | some t =>
    by_cases hlt : max time (q.curTick + 1) < t
    · simp only [if_pos hlt]
      exact hset
    · simp only [if_neg hlt]
      have ht := hold t hevent
      refine ⟨q, rfl, rfl, .refl q, fun _ => .inr (by simp [hevent]), ?_⟩
      intro e he
      cases hevent.symm.trans he
      omega

theorem schedSendEvent_maxTick (hwait : q.waitingOnRetry = false) :
    ∃ q', q.schedSendEvent maxTick = .ok q' ∧ q'.transmitList = q.transmitList ∧ SameMode q q' ∧
      q'.sendEvent = q.sendEvent := by
  unfold schedSendEvent
  rw [hwait, if_neg Bool.false_ne_true, if_neg (not_not.mpr rfl)]
  split
  · exact ⟨_, rfl, rfl, ⟨rfl, hwait.symm, rfl⟩, rfl⟩
  · exact ⟨q, rfl, rfl, .refl q, rfl⟩

section Enqueue

theorem enqueue_front (h : q.Timed) (hnow : q.curTick ≤ time) (htime : time < maxTick)
    (hpassed : ∀ it ∈ q.transmitList, q.stopsAt pkt time it = false) :
    ∃ q', { q with transmitList := ⟨time, pkt⟩ :: q.transmitList }.schedSendEvent time = .ok q' ∧
      q'.transmitList = ⟨time, pkt⟩ :: q.transmitList ∧ SameMode q q' ∧ q'.Timed ∧ q'.Awake := by
  have hlater : ∀ it ∈ q.transmitList, time < it.tick := by
    intro it hit
    have hstop := hpassed it hit
    rw [stopsAt, or_eq_false_iff, decide_eq_false_iff_not] at hstop
    omega
  have hwait : q.waitingOnRetry = false := by
    by_contra hwait
    obtain ⟨front, others, hlist, hready⟩ := h.refused (not_eq_false _ ▸ hwait)
    have hfront := hlater front (hlist ▸ mem_cons_self)
    omega
  have hold : ∀ e, q.sendEvent = some e → q.curTick ≤ e ∧ time ≤ e := by
    intro e he
    obtain ⟨_, hcur, front, others, hlist, hle, _⟩ := h.event e he
    have hfront := hlater front (hlist ▸ mem_cons_self)
    omega
  obtain ⟨q', hcall, hsame, hmode, hawake, hevent⟩ :=
    schedSendEvent_front (q := { q with transmitList := ⟨time, pkt⟩ :: q.transmitList })
      h.now htime hwait hold
  have hmode' : SameMode q q' := ⟨hmode.curTick, hmode.waitingOnRetry, hmode.forceOrder⟩
  refine ⟨q', hcall, hsame, hmode', ?_, hawake⟩
  constructor
  · rw [hmode'.curTick]
    exact h.now
  · rw [hsame]
    exact forall_mem_cons.mpr ⟨htime, h.ticks⟩
  · intro e he
    rw [hmode'.curTick, hmode'.waitingOnRetry]
    have hbounds := hevent e he
    exact ⟨hwait, hbounds.1, ⟨time, pkt⟩, q.transmitList, hsame, hbounds.2.1, hbounds.2.2⟩
  · intro hw
    rw [hmode'.waitingOnRetry, hwait] at hw
    cases hw

theorem enqueue_behind {list pre post : List DeferredPacket} {it : DeferredPacket} (h : q.Timed)
    (htime : time < maxTick)
    (hplaced : Placed (q.stopsAt pkt time) ⟨time, pkt⟩ q.transmitList list (pre ++ [it]) post) :
    { q with transmitList := list }.Timed := by
  have hhead : ∀ dp rest, q.transmitList = dp :: rest → ∃ rest', list = dp :: rest' := by
    intro dp rest hlist
    rw [hplaced.after]
    have hbefore := hplaced.before
    rw [hlist] at hbefore
    cases pre with
    | nil | cons a pre =>
      obtain ⟨rfl, _⟩ := List.cons.inj hbefore
      exact ⟨_, rfl⟩
  constructor
  · exact h.now
  · intro dp hdp
    rcases hplaced.mem_iff.mp hdp with rfl | hdp
    · exact htime
    · exact h.ticks dp hdp
  · intro e he
    obtain ⟨hwait, hcur, dp, rest, hlist, hbounds⟩ := h.event e he
    obtain ⟨rest', hlist'⟩ := hhead dp rest hlist
    exact ⟨hwait, hcur, dp, rest', hlist', hbounds⟩
  · intro hwait
    obtain ⟨dp, rest, hlist, hready⟩ := h.refused hwait
    obtain ⟨rest', hlist'⟩ := hhead dp rest hlist
    exact ⟨dp, rest', hlist', hready⟩

structure Enqueued (q : PacketQueue) (dp : DeferredPacket) (q' : PacketQueue) : Prop where
  placed : ∃ pre post,
    Placed (q.stopsAt dp.pkt dp.tick) dp q.transmitList q'.transmitList pre post ∧
    (pre = [] ∨ ∃ pre' it, pre = pre' ++ [it] ∧ q.stopsAt dp.pkt dp.tick it = true)
  mode : SameMode q q'
  timed : q'.Timed
  awake : q.Awake → q'.Awake

theorem schedSendTiming_spec (h : q.Timed) (hnow : q.curTick ≤ dp.tick) (htick : dp.tick < maxTick)
    (hsnoop : dp.pkt.expressSnoop = false) :
    OkOrPanic (q.schedSendTiming dp.pkt dp.tick) (Enqueued q dp) := by
  unfold schedSendTiming
  rw [simAssert_of (decide_eq_true hnow), simAssert_of (by rw [hsnoop]; rfl)]
  split
  · exact .inr ⟨_, rfl⟩
  · left
    unfold enqueue
    rcases insertBehind_spec (q.stopsAt dp.pkt dp.tick) dp q.transmitList
      with ⟨hnone, hplaced⟩ | ⟨list, pre, it, post, hsome, hstop, hplaced⟩
    · rw [hnone]
      obtain ⟨q', hcall, hlist, hmode, htimed, hawake⟩ := enqueue_front h hnow htick hplaced.passed
      refine ⟨q', hcall, ⟨⟨[], q.transmitList, ?_, .inl rfl⟩, hmode, htimed, fun _ => hawake⟩⟩
      rw [hlist]
      exact hplaced
    · rw [hsome]
      refine ⟨_, rfl, ⟨⟨pre ++ [it], post, hplaced, .inr ⟨pre, it, rfl, hstop⟩⟩, ⟨rfl, rfl, rfl⟩,
        enqueue_behind h htick hplaced, fun hawake _ => hawake ?_⟩⟩
      rw [hplaced.before]
      simp

end Enqueue

structure Ordered (sent arrived : List DeferredPacket) (q : PacketQueue) : Prop where
  once : (sent ++ q.transmitList).Perm arrived
  numbered : Numbered (·.pkt.ptr) 0 arrived
  byTick : q.forceOrder = false → q.transmitList.Pairwise fun a b =>
    a.tick < b.tick ∨ (a.tick = b.tick ∧ a.pkt.ptr < b.pkt.ptr)
  byAddr : q.forceOrder = true → (sent ++ q.transmitList).Pairwise fun a b =>
    a.pkt.matchAddr b.pkt = true → a.pkt.ptr < b.pkt.ptr

namespace Ordered

variable {sent arrived : List DeferredPacket}

theorem ptr_lt (h : Ordered sent arrived q) (hdp : dp ∈ sent ++ q.transmitList) :
    dp.pkt.ptr < arrived.length := by
  have hbounds := h.numbered.mem_bounds (h.once.mem_iff.mp hdp)
  omega

theorem enqueued (h : Ordered sent arrived q) (hnew : Enqueued q dp q')
    (hptr : dp.pkt.ptr = arrived.length) : Ordered sent (arrived ++ [dp]) q' := by
  obtain ⟨pre, post, hplaced, hfront⟩ := hnew.placed
  have hearlier : ∀ a ∈ sent ++ q.transmitList, a.pkt.ptr < dp.pkt.ptr := fun a ha =>
    hptr ▸ h.ptr_lt ha
  have hmem : ∀ a ∈ pre, a ∈ q.transmitList := fun a ha => by
    rw [hplaced.before]
    exact mem_append_left post ha
  constructor
  · -- the new packet is moved to the end
    calc (sent ++ q'.transmitList).Perm (sent ++ dp :: q.transmitList) :=
    hplaced.perm.append_left sent
      _ |>.Perm (dp :: (sent ++ q.transmitList)) := perm_middle
      _ |>.Perm (dp :: arrived) := h.once.cons dp
      _ |>.Perm (arrived ++ [dp]) := (perm_append_singleton dp arrived).symm
  · refine Numbered.append_iff.mpr ⟨h.numbered, Numbered.singleton_iff.mpr ?_⟩
    rw [hptr, zero_add]
  · intro hforce
    rw [hnew.mode.forceOrder] at hforce
    have hold := h.byTick hforce
    refine hplaced.pairwise hold ?_ ?_
    · intro a ha
      have hle : a.tick ≤ dp.tick := by
        rcases hfront with rfl | ⟨pre', it, rfl, hstop⟩
        · cases ha
        · have hit : it.tick ≤ dp.tick := by simpa [stopsAt, hforce] using hstop
          rw [hplaced.before, append_assoc, pairwise_append] at hold
          rcases mem_append.mp ha with ha | ha
          · rcases hold.2.2 a ha it mem_cons_self with hlt | ⟨heq, _⟩ <;> omega
          · rw [mem_singleton.mp ha]
            exact hit
      have hptr := hearlier a (mem_append_right sent (hmem a ha))
      omega
    · intro a ha
      have hstop := hplaced.passed a ha
      rw [stopsAt, or_eq_false_iff, decide_eq_false_iff_not] at hstop
      omega
  · intro hforce
    rw [hnew.mode.forceOrder] at hforce
    obtain ⟨hsent, hlist, hcross⟩ := pairwise_append.mp (h.byAddr hforce)
    refine pairwise_append.mpr ⟨hsent, hplaced.pairwise hlist ?_ ?_, ?_⟩
    · intro a ha _
      exact hearlier a (mem_append_right sent (hmem a ha))
    · -- a packet of the same address would have stopped the search
      intro a ha hmatch
      have hstop := hplaced.passed a ha
      have hmatch' : a.pkt.matchAddr dp.pkt = true := by
        simp only [Packet.matchAddr, and_eq_true, beq_iff_eq] at hmatch ⊢
        exact ⟨hmatch.1.symm, hmatch.2.symm⟩
      rw [stopsAt, hforce, hmatch'] at hstop
      cases hstop
    · intro a ha b hb hmatch
      rcases hplaced.mem_iff.mp hb with rfl | hb
      · exact hearlier a (mem_append_left q.transmitList ha)
      · exact hcross a ha b hb hmatch

theorem pop (h : Ordered sent arrived q) (hlist : q.transmitList = dp :: rest) :
    Ordered (sent ++ [dp]) arrived { q with transmitList := rest } := by
  have hall : sent ++ [dp] ++ rest = sent ++ q.transmitList := by simp [hlist]
  constructor
  · rw [hall]
    exact h.once
  · exact h.numbered
  · intro hforce
    have hold := h.byTick hforce
    rw [hlist] at hold
    exact (pairwise_cons.mp hold).2
  · intro hforce
    rw [hall]
    exact h.byAddr hforce

theorem congr (h : Ordered sent arrived q) (hlist : q'.transmitList = q.transmitList)
    (hforce : q'.forceOrder = q.forceOrder) : Ordered sent arrived q' := by
  constructor
  · rw [hlist]
    exact h.once
  · exact h.numbered
  · rw [hlist, hforce]
    exact h.byTick
  · rw [hlist, hforce]
    exact h.byAddr

end Ordered

section Sending

variable {sent arrived nested : List DeferredPacket}

def Fresh (arrived : List DeferredPacket) (q : PacketQueue) (new : List DeferredPacket) : Prop :=
  Numbered (·.pkt.ptr) arrived.length new ∧
    ∀ dp ∈ new, q.curTick ≤ dp.tick ∧ dp.pkt.expressSnoop = false ∧ dp.tick < maxTick

theorem schedSendTiming_ordered (h : q.Timed) (ho : Ordered sent arrived q)
    (hnew : Fresh arrived q [dp]) : OkOrPanic (q.schedSendTiming dp.pkt dp.tick) fun q' =>
      q'.Timed ∧ SameMode q q' ∧ (q.Awake → q'.Awake) ∧ Ordered sent (arrived ++ [dp]) q' := by
  obtain ⟨hnow, hsnoop, htick⟩ := hnew.2 dp mem_cons_self
  have hptr := Numbered.singleton_iff.mp hnew.1
  refine (schedSendTiming_spec h hnow htick hsnoop).mono fun q' hq => ?_
  exact ⟨hq.timed, hq.mode, hq.awake, ho.enqueued hq hptr⟩

theorem nestedCalls_ordered (h : q.Timed) (ho : Ordered sent arrived q)
    (hnew : Fresh arrived q nested) : OkOrPanic (nestedCalls nested q) fun q' =>
      q'.Timed ∧ SameMode q q' ∧ Ordered sent (arrived ++ nested) q' := by
  induction nested generalizing q arrived with
  | nil =>
    rw [append_nil]
    exact .ok ⟨h, .refl q, ho⟩
  | cons dp nested ih =>
    obtain ⟨hptr, hnumbered⟩ := Numbered.cons_iff.mp hnew.1
    have hfirst : Fresh arrived q [dp] :=
      ⟨Numbered.singleton_iff.mpr hptr, fun a ha => hnew.2 a (by simp_all)⟩
    refine (schedSendTiming_ordered h ho hfirst).bind fun q₁ ⟨htimed, hmode, _, hordered⟩ => ?_
    have hrest : Fresh (arrived ++ [dp]) q₁ nested := by
      refine ⟨by simpa using hnumbered, fun a ha => ?_⟩
      rw [hmode.curTick]
      exact hnew.2 a (mem_cons_of_mem dp ha)
    refine (ih htimed hordered hrest).mono fun q₂ ⟨htimed₂, hmode₂, hordered₂⟩ => ?_
    rw [append_assoc] at hordered₂
    exact ⟨htimed₂, hmode.trans hmode₂, hordered₂⟩

theorem schedNext (h : q.Timed) (hwait : q.waitingOnRetry = false) :
    ∃ q', q.schedSendEvent q.deferredPacketReadyTime = .ok q' ∧ q'.transmitList = q.transmitList ∧
      SameMode q q' ∧ q'.Timed ∧ q'.Awake := by
  cases hlist : q.transmitList with
  | nil =>
    obtain ⟨q', hcall, hsame, hmode, hevent⟩ := schedSendEvent_maxTick hwait
    have hempty : q'.transmitList = [] := hsame.trans hlist
    refine ⟨q', by rw [deferredPacketReadyTime, hlist]; exact hcall, hempty, hmode, ?_,
      fun hne => absurd hempty hne⟩
    constructor
    · rw [hmode.curTick]
      exact h.now
    · rw [hempty]
      exact forall_mem_nil _
    · intro e he
      obtain ⟨_, _, dp, rest, hcons, _⟩ := h.event e (hevent ▸ he)
      rw [hlist] at hcons
      cases hcons
    · intro hw
      rw [hmode.waitingOnRetry, hwait] at hw
      cases hw
  | cons dp rest =>
    have hticks := h.ticks
    have hold : ∀ e, q.sendEvent = some e → q.curTick ≤ e ∧ dp.tick ≤ e := by
      intro e he
      obtain ⟨_, hcur, dp', rest', hcons, hle, _⟩ := h.event e he
      rw [hlist] at hcons
      cases hcons
      exact ⟨hcur, hle⟩
    obtain ⟨q', hcall, hsame, hmode, hawake, hevent⟩ := schedSendEvent_front h.now
      (hticks dp (hlist ▸ mem_cons_self)) hwait hold
    refine ⟨q', by rw [deferredPacketReadyTime, hlist]; exact hcall, hsame.trans hlist, hmode, ?_,
      hawake⟩
    constructor
    · rw [hmode.curTick]
      exact h.now
    · rw [hsame]
      exact hticks
    · intro e he
      have hbounds := hevent e he
      rw [hmode.waitingOnRetry, hmode.curTick]
      exact ⟨hwait, hbounds.1, dp, rest, hsame.trans hlist, hbounds.2.1, hbounds.2.2⟩
    · intro hw
      rw [hmode.waitingOnRetry, hwait] at hw
      cases hw

theorem sendDeferredPacket_eq (hwait : q.waitingOnRetry = false)
    (hlist : q.transmitList = dp :: rest) (hready : dp.tick ≤ q.curTick) (reply : Reply) :
    q.sendDeferredPacket reply =
      match reply with
      | .accepted nested => do
        let q' ← nestedCalls nested { q with transmitList := rest }
        q'.schedSendEvent q'.deferredPacketReadyTime
      | .refused => .ok { q with transmitList := dp :: rest, waitingOnRetry := true } := by
  have hcheck : q.deferredPacketReady = true := by
    rw [deferredPacketReady, hlist]
    exact decide_eq_true hready
  unfold sendDeferredPacket
  rw [simAssert_of (by rw [hwait]; rfl), simAssert_of hcheck, hlist]
  rfl

variable (h : q.Timed) (hwait : q.waitingOnRetry = false) (hevent : q.sendEvent = none)
  (hlist : q.transmitList = dp :: rest)
include h hwait hevent hlist

theorem Timed.pop : { q with transmitList := rest }.Timed where
  now := h.now
  ticks a ha := h.ticks a (hlist ▸ List.mem_cons_of_mem dp ha)
  event e he := by cases hevent.symm.trans he
  refused hw := by cases hwait.symm.trans hw

variable (hready : dp.tick ≤ q.curTick)
include hready

theorem sendDeferredPacket_accepted (ho : Ordered sent arrived q)
    (hnew : Fresh arrived q nested) : OkOrPanic (q.sendDeferredPacket (.accepted nested)) fun q' =>
      q'.Timed ∧ q'.Awake ∧ Ordered (sent ++ [dp]) (arrived ++ nested) q' := by
  rw [sendDeferredPacket_eq hwait hlist hready]
  have htimed := h.pop hwait hevent hlist
  refine (nestedCalls_ordered htimed (ho.pop hlist) hnew).bind fun q₁ ⟨htimed₁, hmode₁, ho₁⟩ => ?_
  obtain ⟨q₂, hcall, hlist₂, hmode₂, htimed₂, hawake₂⟩ :=
    schedNext htimed₁ (hmode₁.waitingOnRetry.trans hwait)
  rw [hcall]
  exact .ok ⟨htimed₂, hawake₂, ho₁.congr hlist₂ hmode₂.forceOrder⟩

theorem sendDeferredPacket_alone : ∃ q', q.sendDeferredPacket (.accepted []) = .ok q' ∧
    q'.transmitList = rest ∧ q'.curTick = q.curTick := by
  obtain ⟨q', hcall, hlist', hmode, _⟩ := schedNext (h.pop hwait hevent hlist) hwait
  rw [sendDeferredPacket_eq hwait hlist hready]
  exact ⟨q', hcall, hlist', hmode.curTick⟩

theorem sendDeferredPacket_refused (ho : Ordered sent arrived q) :
    OkOrPanic (q.sendDeferredPacket .refused) fun q' =>
      q'.Timed ∧ q'.Awake ∧ Ordered sent arrived q' := by
  rw [sendDeferredPacket_eq hwait hlist hready]
  refine .ok ⟨?_, fun _ => .inl rfl, ho.congr hlist.symm rfl⟩
  constructor
  · exact h.now
  · exact fun a ha => h.ticks a (hlist ▸ ha)
  · intro e he
    cases hevent.symm.trans he
  · exact fun _ => ⟨dp, rest, rfl, hready⟩

end Sending

end PacketQueue

namespace QueueRun

open PacketQueue

variable {s t : QueueRun} {a : Action} {q : PacketQueue} {dp : DeferredPacket}
  {rest : List DeferredPacket} {reply : Reply}

def Action.endTick : Action → Nat
  | .passTime tick => tick
  | .schedSendTiming _ _ => 0
  | .processSendEvent _ => 0
  | .retry _ => 0

/-- The packets and the time stay below `maxTick`. -/
def BeforeMaxTick (s : QueueRun) (a : Action) : Prop :=
  s.Admissible a ∧ (∀ dp ∈ a.new, dp.tick < maxTick) ∧ a.endTick < maxTick

instance : Decidable (s.BeforeMaxTick a) := inferInstanceAs (Decidable (_ ∧ _ ∧ _))

structure Delivers (s : QueueRun) : Prop where
  /-- Each arrived packet was accepted once or is in the list once. -/
  once : (s.accepted.map Prod.fst ++ s.queue.transmitList).Perm s.arrived
  distinct : (s.arrived.map (·.pkt.ptr)).Nodup
  onTime : ∀ a ∈ s.accepted, a.1.tick ≤ a.2
  byTick : s.queue.forceOrder = false → s.queue.transmitList.Pairwise fun a b =>
    a.tick < b.tick ∨ (a.tick = b.tick ∧ a.pkt.ptr < b.pkt.ptr)
  byAddr : s.queue.forceOrder = true →
    (s.accepted.map Prod.fst ++ s.queue.transmitList).Pairwise fun a b =>
      a.pkt.matchAddr b.pkt = true → a.pkt.ptr < b.pkt.ptr
  awake : s.queue.transmitList ≠ [] →
    s.queue.waitingOnRetry = true ∨ s.queue.sendEvent ≠ none

structure Inv (s : QueueRun) : Prop where
  timed : s.queue.Timed
  awake : s.queue.Awake
  ordered : Ordered (s.accepted.map Prod.fst) s.arrived s.queue
  onTime : ∀ a ∈ s.accepted, a.1.tick ≤ a.2

theorem Inv.delivers (h : s.Inv) : s.Delivers where
  once := h.ordered.once
  distinct := h.ordered.numbered.nodup_map
  onTime := h.onTime
  byTick := h.ordered.byTick
  byAddr := h.ordered.byAddr
  awake := h.awake

theorem init_inv (forceOrder disableSanityCheck : Bool) {tick : Nat} (h : tick < maxTick) :
    (init forceOrder disableSanityCheck tick).Inv where
  timed := ⟨h, forall_mem_nil _, fun _ he => by (cases he), fun hw => by (cases hw)⟩
  awake := fun hne => absurd rfl hne
  ordered :=
    ⟨List.Perm.refl _, Numbered.nil, fun _ => List.Pairwise.nil, fun _ => List.Pairwise.nil⟩
  onTime := forall_mem_nil _

structure Sending (s : QueueRun) (q : PacketQueue) (dp : DeferredPacket)
    (rest : List DeferredPacket) : Prop where
  timed : q.Timed
  list : q.transmitList = dp :: rest
  wait : q.waitingOnRetry = false
  event : q.sendEvent = none
  ready : dp.tick ≤ q.curTick
  same : s.queue.transmitList = q.transmitList
  now : s.queue.curTick = q.curTick
  force : q.forceOrder = s.queue.forceOrder

theorem Sending.sent_inv (h : s.Inv) (hs : s.Sending q dp rest)
    (hnew : Fresh s.arrived q (Reply.new reply)) :
    OkOrPanic (q.sendDeferredPacket reply) fun q' => (s.sent reply q').Inv := by
  have ho : Ordered (s.accepted.map Prod.fst) s.arrived q := h.ordered.congr hs.same.symm hs.force
  cases reply with
  | accepted nested =>
    refine (sendDeferredPacket_accepted hs.timed hs.wait hs.event hs.list hs.ready ho hnew).mono
      fun q' ⟨htimed, hawake, hordered⟩ => ?_
    have haccepted : (s.sent (.accepted nested) q').accepted = s.accepted ++ [(dp, q.curTick)] := by
      simp [sent, hs.same, hs.list, hs.now]
    refine ⟨htimed, hawake, ?_, ?_⟩
    · rw [haccepted, map_append]
      exact hordered
    · rw [haccepted]
      intro a ha
      rcases mem_append.mp ha with ha | ha
      · exact h.onTime a ha
      · rw [mem_singleton.mp ha]
        exact hs.ready
  | refused =>
    refine (sendDeferredPacket_refused hs.timed hs.wait hs.event hs.list hs.ready ho).mono
      fun q' ⟨htimed, hawake, hordered⟩ => ?_
    exact ⟨htimed, hawake, hordered, h.onTime⟩

theorem Inv.sending_event (h : s.Inv) (he : s.queue.sendEvent = some s.queue.curTick) :
    s.queue.waitingOnRetry = false ∧
      ∃ dp rest, s.Sending { s.queue with sendEvent := none } dp rest := by
  obtain ⟨hwait, _, dp, rest, hlist, hready, _⟩ := h.timed.event _ he
  refine ⟨hwait, dp, rest, ?_, hlist, hwait, rfl, hready, rfl, rfl, rfl⟩
  exact ⟨h.timed.now, h.timed.ticks, fun _ he => by (cases he), h.timed.refused⟩

theorem Inv.sending_retry (h : s.Inv) (hw : s.queue.waitingOnRetry = true) :
    ∃ dp rest, s.Sending { s.queue with waitingOnRetry := false } dp rest := by
  obtain ⟨dp, rest, hlist, hready⟩ := h.timed.refused hw
  have hevent : s.queue.sendEvent = none := by
    cases he : s.queue.sendEvent with
    | none => rfl
    | some e =>
      have hwait := (h.timed.event e he).1
      rw [hw] at hwait
      cases hwait
  refine ⟨dp, rest, ?_, hlist, rfl, hevent, hready, rfl, rfl, rfl⟩
  exact ⟨h.timed.now, h.timed.ticks, fun _ he => by (cases hevent.symm.trans he),
    fun hw => by (cases hw)⟩

theorem step_processSendEvent (hwait : s.queue.waitingOnRetry = false) :
    step s (.processSendEvent reply) =
      { s.queue with sendEvent := none }.sendDeferredPacket reply >>= fun q =>
        pure (s.sent reply q) := by
  have hcall : s.queue.processSendEvent reply =
      { s.queue with sendEvent := none }.sendDeferredPacket reply := by
    unfold processSendEvent
    rw [simAssert_of (by rw [hwait]; rfl)]
    rfl
  rw [step, hcall]

theorem step_retry (hwait : s.queue.waitingOnRetry = true) : step s (.retry reply) =
      { s.queue with waitingOnRetry := false }.sendDeferredPacket reply >>=
        fun q => pure (s.sent reply q) := by
  have hcall : s.queue.retry reply =
      { s.queue with waitingOnRetry := false }.sendDeferredPacket reply := by
    unfold PacketQueue.retry
    rw [simAssert_of hwait]
    rfl
  rw [step, hcall]

theorem BeforeMaxTick.fresh (h : s.BeforeMaxTick a) : Fresh s.arrived s.queue a.new :=
  ⟨h.1.1.1, fun dp hdp => ⟨(h.1.1.2 dp hdp).1, (h.1.1.2 dp hdp).2, h.2.1 dp hdp⟩⟩

theorem step_spec (h : s.Inv) (ha : s.BeforeMaxTick a) : OkOrPanic (step s a) Inv := by
  have hfresh := ha.fresh
  cases a with
  | schedSendTiming pkt time =>
    refine (schedSendTiming_ordered h.timed h.ordered hfresh).bind
      fun q ⟨htimed, _, hawake, hordered⟩ => ?_
    exact .ok ⟨htimed, hawake h.awake, hordered, h.onTime⟩
  | processSendEvent reply =>
    obtain ⟨hwait, dp, rest, hsending⟩ := h.sending_event ha.1.2
    rw [step_processSendEvent hwait]
    exact (hsending.sent_inv h hfresh).bind fun q hq => .ok hq
  | retry reply =>
    obtain ⟨dp, rest, hsending⟩ := h.sending_retry ha.1.2
    rw [step_retry ha.1.2]
    exact (hsending.sent_inv h hfresh).bind fun q hq => .ok hq
  | passTime tick =>
    obtain ⟨hle, hbefore⟩ := ha.1.2
    refine .ok ⟨⟨ha.2.2, h.timed.ticks, ?_, ?_⟩, h.awake, ?_, h.onTime⟩
    · intro e he
      obtain ⟨hwait, _, dp, rest, hlist, hready, hsoon⟩ := h.timed.event e he
      refine ⟨hwait, hbefore e he, dp, rest, hlist, hready, ?_⟩
      exact le_trans hsoon (by change _ ≤ max dp.tick (tick + 1); omega)
    · intro hw
      obtain ⟨dp, rest, hlist, hready⟩ := h.timed.refused hw
      exact ⟨dp, rest, hlist, le_trans hready hle⟩
    · exact h.ordered.congr rfl rfl

theorem reach_inv (h : Reach step BeforeMaxTick s t) (hs : s.Inv) : t.Inv :=
  h.invariant (P := Inv) hs fun hi ha hstep => (step_spec hi ha).of_ok hstep

section Drain

theorem Inv.send_next (h : s.Inv) (hlist : s.queue.transmitList = dp :: rest)
    (hroom : max dp.tick (s.queue.curTick + 1) < maxTick) : ∃ t, Reach step BeforeMaxTick s t ∧
      t.queue.transmitList = rest ∧ t.arrived = s.arrived ∧
      t.queue.curTick ≤ max dp.tick (s.queue.curTick + 1) := by
  have hnone : ∀ s : QueueRun, s.Arrivals [] := fun s => ⟨Numbered.nil, forall_mem_nil _⟩
  by_cases hwait : s.queue.waitingOnRetry = true
  · obtain ⟨dp', rest', hs⟩ := h.sending_retry hwait
    cases hlist.symm.trans (hs.same.trans hs.list)
    obtain ⟨q, hcall, hq, hcur⟩ :=
      sendDeferredPacket_alone hs.timed hs.wait hs.event hs.list hs.ready
    have hallowed : s.BeforeMaxTick (.retry (.accepted [])) :=
      ⟨⟨hnone s, hwait⟩, forall_mem_nil _, by decide⟩
    have hstep : step s (.retry (.accepted [])) = .ok (s.sent (.accepted []) q) := by
      rw [step_retry hwait, hcall]
      rfl
    refine ⟨_, Reach.single hallowed hstep, hq, append_nil _, ?_⟩
    change q.curTick ≤ _
    rw [hcur]
    change s.queue.curTick ≤ _
    omega
  · -- time passes until the event, then it fires
    have hawake := h.awake (by rw [hlist]; exact cons_ne_nil _ _)
    obtain ⟨e, he⟩ := Option.ne_none_iff_exists'.mp (hawake.resolve_left hwait)
    obtain ⟨_, hcur, dp', rest', hlist', hready, hsoon⟩ := h.timed.event e he
    cases hlist.symm.trans hlist'
    have hpass : s.BeforeMaxTick (.passTime e) := by
      refine ⟨⟨hnone s, hcur, fun e' he' => ?_⟩, forall_mem_nil _, ?_⟩
      · cases he.symm.trans he'
        exact le_rfl
      · exact lt_of_le_of_lt hsoon hroom
    obtain ⟨u, hu⟩ : ∃ u, step s (.passTime e) = .ok u := ⟨_, rfl⟩
    have hinv : u.Inv := (step_spec h hpass).of_ok hu
    cases hu
    obtain ⟨hwait', dp', rest', hs⟩ := hinv.sending_event he
    cases hlist.symm.trans (hs.same.trans hs.list)
    obtain ⟨q, hcall, hq, hcur'⟩ :=
      sendDeferredPacket_alone hs.timed hs.wait hs.event hs.list hs.ready
    have hallowed : QueueRun.BeforeMaxTick ⟨{ s.queue with curTick := e }, s.arrived, s.accepted⟩
        (.processSendEvent (.accepted [])) :=
      ⟨⟨hnone _, he⟩, forall_mem_nil _, by decide⟩
    have hstep : step ⟨{ s.queue with curTick := e }, s.arrived, s.accepted⟩
        (.processSendEvent (.accepted [])) = .ok (QueueRun.sent
          ⟨{ s.queue with curTick := e }, s.arrived, s.accepted⟩ (.accepted []) q) := by
      rw [step_processSendEvent hwait', hcall]
      rfl
    refine ⟨_, (Reach.single hpass rfl).snoc hallowed hstep, hq, append_nil _, ?_⟩
    change q.curTick ≤ _
    rw [hcur']
    exact hsoon

theorem Inv.drains {n bound : Nat} (h : s.Inv) (hn : s.queue.transmitList.length = n)
    (hticks : ∀ dp ∈ s.queue.transmitList, dp.tick ≤ bound) (hcur : s.queue.curTick ≤ bound)
    (hroom : bound + n < maxTick) : ∃ t, Reach step BeforeMaxTick s t ∧
      t.queue.transmitList = [] ∧ t.arrived = s.arrived := by
  induction n generalizing s bound with
  | zero => exact ⟨s, .refl s, eq_nil_of_length_eq_zero hn, rfl⟩
  | succ n ih =>
    cases hlist : s.queue.transmitList with
    | nil =>
      rw [hlist] at hn
      cases hn
    | cons dp rest =>
      rw [hlist] at hn hticks
      have hfirst := hticks dp mem_cons_self
      obtain ⟨u, hu, hrest, harrived, hlater⟩ := h.send_next hlist (by omega)
      have hticks' : ∀ a ∈ u.queue.transmitList, a.tick ≤ bound + 1 := by
        intro a ha
        have hle := hticks a (mem_cons_of_mem dp (hrest ▸ ha))
        omega
      obtain ⟨t, ht, hempty, harrived'⟩ := ih (reach_inv hu h)
        (by rw [hrest]; simpa using hn) hticks' (by omega) (by omega)
      exact ⟨t, hu.trans ht, hempty, harrived'.trans harrived⟩

end Drain

/-- In every run below `maxTick` the queue keeps its promises, no assert fails in any further
action, and a peer that accepts gets every packet that there is time for. -/
theorem packets_delivered (forceOrder disableSanityCheck : Bool) {tick : Nat}
    (htick : tick < maxTick)
    (h : Reach step BeforeMaxTick (init forceOrder disableSanityCheck tick) s) :
    s.Delivers ∧ (∀ a, s.BeforeMaxTick a → step s a ≠ .error .assertion) ∧
      ∀ bound, (∀ dp ∈ s.queue.transmitList, dp.tick ≤ bound) → s.queue.curTick ≤ bound →
        bound + s.queue.transmitList.length < maxTick → ∃ t, Reach step BeforeMaxTick s t ∧
          t.queue.transmitList = [] ∧ (t.accepted.map Prod.fst).Perm s.arrived := by
  have hinv := reach_inv h (init_inv forceOrder disableSanityCheck htick)
  refine ⟨hinv.delivers, fun a ha => (step_spec hinv ha).no_assertion, ?_⟩
  intro bound hticks hcur hroom
  obtain ⟨t, ht, hempty, harrived⟩ := hinv.drains rfl hticks hcur hroom
  have honce := (reach_inv ht hinv).ordered.once
  rw [hempty, append_nil, harrived] at honce
  exact ⟨t, ht, hempty, honce⟩

theorem packets_delivered_nested : ∃ s, Reach step BeforeMaxTick (init true false 0) s ∧
    s.accepted.length = 1 ∧ s.queue.transmitList.length = 2 ∧ s.Delivers := by
  obtain ⟨s, hrun, hend⟩ := Reach.exists_of_runFrom step BeforeMaxTick (init true false 0)
    [.schedSendTiming ⟨0, 64, false, false⟩ 5, .schedSendTiming ⟨1, 64, false, false⟩ 3,
    .passTime 5,
      .processSendEvent (.accepted [⟨9, ⟨2, 128, false, false⟩⟩])]
    (fun s => s.accepted.length = 1 ∧ s.queue.transmitList.length = 2) (by decide +kernel)
  exact ⟨s, hrun, hend.1, hend.2, (packets_delivered true false (by decide) hrun).1⟩

/-- A packet for `maxTick` waits without an event. -/
theorem maxTick_packet_asleep : ∃ s, Reach step Admissible (init false false 0) s ∧
    s.queue.transmitList ≠ [] ∧ s.queue.waitingOnRetry = false ∧ s.queue.sendEvent = none :=
  Reach.exists_of_run [.schedSendTiming ⟨0, 64, false, false⟩ maxTick] (by decide +kernel)

end QueueRun

end Gem5.Mem
