import Gem5.Mem.PacketQueue

/-!
# The DMA responses of the DTA

Responses of the cache wait in a list, sorted by their tick, until the completion event hands the
first one to its worker; one response is handed over per firing. The event is scheduled for a
response that becomes the first, and after each firing for the next one, at least one tick ahead.
`RespRun` adds the responses that arrived and those handed over.
-/

namespace Gem5.DTA

open List Mem BackInsert

inductive RespTarget where
  | rxDMA (workerID : Int)
  | txDMA (workerID : Int)
  | status
  deriving DecidableEq

/-- `ptr` is the number of the arrival, and `arrivedAt` its time; no function reads them. -/
structure RespPacket where
  ptr : Nat
  arrivedAt : Nat
  target : RespTarget
  deriving DecidableEq

structure WaitingPacket where
  tick : Nat
  pkt : RespPacket
  deriving DecidableEq

structure RespQueue where
  waiting : List WaitingPacket
  /-- The time of the event, if it is scheduled. -/
  dmaCompletionEvent : Option Nat
  curTick : Nat

structure Workers where
  numDTARXWorker : Nat
  numDTATXWorker : Nat

/-- The asserts in front of the call of the worker; `idle` is the state of the workers. -/
def Workers.check (w : Workers) (idle : RespTarget → Bool) : RespTarget → Sim Unit
  | .rxDMA workerID => do
    simAssert (0 ≤ workerID ∧ workerID < w.numDTARXWorker)
    simAssert (!idle (.rxDMA workerID))
  | .txDMA workerID => do
    simAssert (0 ≤ workerID ∧ workerID < w.numDTATXWorker)
    simAssert (!idle (.txDMA workerID))
  | .status => .ok ()

namespace RespQueue

def schedule (time : Nat) (q : RespQueue) : Sim RespQueue := do
  simAssert (q.curTick ≤ time)
  return { q with dmaCompletionEvent := some time }

/-- Ticks are 64 bits wide. -/
def schedDMACompletionEvent (time : Nat) (q : RespQueue) : Sim RespQueue :=
  if time ≠ maxTick then q.schedule (max time ((q.curTick + 1) % 2 ^ 64)) else .ok q

def recvTimingRespfromCache (wp : WaitingPacket) (q : RespQueue) : Sim RespQueue := do
  simAssert (q.curTick ≤ wp.tick)
  match insertBehind (fun it => decide (it.tick ≤ wp.tick)) wp q.waiting with
  | some waiting => return { q with waiting }
  | none => schedDMACompletionEvent wp.tick { q with waiting := wp :: q.waiting }

def nextTick (q : RespQueue) : Nat :=
  match q.waiting with
  | [] => maxTick
  | wp :: _ => wp.tick

def handleDMACompletion (w : Workers) (idle : RespTarget → Bool) (q : RespQueue) :
    Sim (WaitingPacket × RespQueue) := do
  let q := { q with dmaCompletionEvent := none }
  let wp ← simSome q.waiting.head?
  let q := { q with waiting := q.waiting.tail }
  w.check idle wp.pkt.target
  let q ← q.schedDMACompletionEvent q.nextTick
  return (wp, q)

def init (curTick : Nat) : RespQueue := ⟨[], none, curTick⟩

end RespQueue

structure RespRun where
  queue : RespQueue
  arrived : List WaitingPacket
  handed : List (WaitingPacket × Nat)
  lastFiring : Option Nat

namespace RespRun

inductive Action where
  | recv (wp : WaitingPacket)
  | fire (idle : RespTarget → Bool)
  | passTime (tick : Nat)

def init (curTick : Nat) : RespRun := ⟨.init curTick, [], [], none⟩

def step (w : Workers) (s : RespRun) : Action → Sim RespRun
  | .recv wp => do
    let q ← s.queue.recvTimingRespfromCache wp
    return { s with queue := q, arrived := s.arrived ++ [wp] }
  | .fire idle => do
    let r ← s.queue.handleDMACompletion w idle
    return { s with
      queue := r.2
      handed := s.handed ++ [(r.1, s.queue.curTick)]
      lastFiring := some s.queue.curTick }
  | .passTime tick => .ok { s with queue := { s.queue with curTick := tick } }

def Admissible (s : RespRun) : Action → Prop
  | .recv wp => wp.pkt.ptr = s.arrived.length ∧ wp.pkt.arrivedAt = s.queue.curTick ∧
      s.queue.curTick ≤ wp.tick
  | .fire _ => s.queue.dmaCompletionEvent = some s.queue.curTick
  | .passTime tick => s.queue.curTick ≤ tick ∧ ∀ e ∈ s.queue.dmaCompletionEvent, tick ≤ e

/-- The ticks of the responses and of the simulation are below `maxTick`. -/
def BeforeMaxTick (s : RespRun) (a : Action) : Prop :=
  s.Admissible a ∧ match a with
    | .recv wp => wp.tick < maxTick
    | .fire _ => True
    | .passTime tick => tick < maxTick

instance {s : RespRun} : (a : Action) → Decidable (s.Admissible a)
  | .recv _ => inferInstanceAs (Decidable (_ ∧ _ ∧ _))
  | .fire _ => inferInstanceAs (Decidable (_ = _))
  | .passTime _ => inferInstanceAs (Decidable (_ ∧ _))

instance {s : RespRun} : (a : Action) → Decidable (s.BeforeMaxTick a)
  | .recv _ => inferInstanceAs (Decidable (_ ∧ _))
  | .fire _ => inferInstanceAs (Decidable (_ ∧ True))
  | .passTime _ => inferInstanceAs (Decidable (_ ∧ _))

end RespRun

def Before (a b : WaitingPacket) : Prop := a.tick < b.tick ∨ a.tick = b.tick ∧ a.pkt.ptr < b.pkt.ptr

def latest (lastFiring : Option Nat) (wp : WaitingPacket) : Nat :=
  max wp.tick (max (wp.pkt.arrivedAt + 1) (lastFiring.elim 0 (· + 1)))

namespace RespQueue

variable {q q' : RespQueue} {wp : WaitingPacket} {time : Nat} {last : Option Nat}
  {w : Workers}

structure Timed (last : Option Nat) (q : RespQueue) : Prop where
  now : q.curTick < maxTick
  ticks : ∀ wp ∈ q.waiting, wp.tick < maxTick
  asleep : q.waiting = [] → q.dmaCompletionEvent = none
  awake : ∀ wp rest, q.waiting = wp :: rest → ∃ e, q.dmaCompletionEvent = some e ∧
    q.curTick ≤ e ∧ wp.tick ≤ e ∧ e ≤ latest last wp

theorem schedDMACompletionEvent_eq (hnow : q.curTick < maxTick) (htime : time < maxTick) :
    q.schedDMACompletionEvent time =
      .ok { q with dmaCompletionEvent := some (max time (q.curTick + 1)) } := by
  have hnext : (q.curTick + 1) % 2 ^ 64 = q.curTick + 1 := by
    apply Nat.mod_eq_of_lt
    rw [maxTick] at hnow
    omega
  rw [schedDMACompletionEvent, if_pos (ne_of_lt htime), schedule, hnext,
    simAssert_of (decide_eq_true (by omega))]
  rfl

theorem recv_spec (h : q.Timed last) (hnow : q.curTick ≤ wp.tick) (htick : wp.tick < maxTick)
    (harrived : wp.pkt.arrivedAt = q.curTick) :
    ∃ q' pre post, q.recvTimingRespfromCache wp = .ok q' ∧ q'.Timed last ∧ q'.curTick = q.curTick ∧
      Placed (fun it => decide (it.tick ≤ wp.tick)) wp q.waiting q'.waiting pre post ∧
      (pre = [] ∨ ∃ pre' it, pre = pre' ++ [it] ∧ it.tick ≤ wp.tick) := by
  rw [recvTimingRespfromCache, simAssert_of (decide_eq_true hnow)]
  rcases insertBehind_spec (fun it => decide (it.tick ≤ wp.tick)) wp q.waiting
    with ⟨hnone, hplaced⟩ | ⟨list, pre, it, post, hsome, hstop, hplaced⟩
  · rw [hnone]
    rw [schedDMACompletionEvent_eq (q := { q with waiting := wp :: q.waiting }) h.now htick]
    refine ⟨_, [], q.waiting, rfl, ⟨h.now, forall_mem_cons.mpr ⟨htick, h.ticks⟩,
      fun hnil => (nomatch hnil), ?_⟩, rfl, hplaced, .inl rfl⟩
    intro a rest hlist
    cases hlist
    refine ⟨_, rfl, ?_, Nat.le_max_left _ _, ?_⟩
    · show q.curTick ≤ max wp.tick (q.curTick + 1)
      omega
    · show max wp.tick (q.curTick + 1) ≤ latest last wp
      rw [latest]
      omega
  · rw [hsome]
    refine ⟨_, pre ++ [it], post, rfl, ⟨h.now, ?_, ?_, ?_⟩, rfl, hplaced,
      .inr ⟨pre, it, rfl, of_decide_eq_true hstop⟩⟩
    · intro a ha
      rcases hplaced.mem_iff.mp ha with rfl | ha
      · exact htick
      · exact h.ticks a ha
    · intro hnil
      rw [hplaced.after] at hnil
      simp at hnil
    · -- the first response is still the first
      intro a rest hlist
      have hfirst : ∃ rest', q.waiting = a :: rest' := by
        rw [hplaced.before]
        rw [hplaced.after] at hlist
        cases pre with
        | nil | cons b pre =>
          obtain ⟨rfl, _⟩ := List.cons.inj hlist
          exact ⟨_, rfl⟩
      obtain ⟨rest', hfirst⟩ := hfirst
      exact h.awake a rest' hfirst

theorem fire_spec {idle : RespTarget → Bool} (h : q.Timed last) (r : WaitingPacket × RespQueue)
    (hfire : q.handleDMACompletion w idle = .ok r) :
    q.waiting = r.1 :: r.2.waiting ∧ r.2.curTick = q.curTick ∧ r.2.Timed (some q.curTick) := by
  obtain ⟨wp, hwp, hfire⟩ := bind_eq_ok.mp hfire
  obtain ⟨_, _, hfire⟩ := bind_eq_ok.mp hfire
  obtain ⟨q', hsched, hfire⟩ := bind_eq_ok.mp hfire
  cases hfire
  have hhead : q.waiting.head? = some wp := simSome_eq_ok.mp hwp
  have hticks : ∀ a ∈ q.waiting.tail, a.tick < maxTick := fun a ha => h.ticks a (mem_of_mem_tail ha)
  have hlist : q.waiting = wp :: q.waiting.tail := by
    cases hw : q.waiting with
    | nil =>
      rw [hw] at hhead
      nomatch hhead
    | cons a rest =>
      rw [hw] at hhead
      cases hhead
      rfl
  cases hrest : q.waiting.tail with
  | nil =>
    simp only [nextTick, hrest] at hsched
    cases hsched
    exact ⟨hlist.trans (by rw [hrest]), rfl, h.now, fun _ ha => (nomatch ha), fun _ => rfl,
      fun _ _ hcons => (nomatch hcons)⟩
  | cons a rest =>
    simp only [nextTick, hrest] at hsched
    rw [hrest] at hticks
    have htick := hticks a mem_cons_self
    rw [schedDMACompletionEvent_eq (q :=
      { q with waiting := a :: rest, dmaCompletionEvent := none })
      h.now htick] at hsched
    cases hsched
    refine ⟨hlist.trans (by rw [hrest]), rfl, h.now, hticks, fun hnil => (nomatch hnil), ?_⟩
    intro b rest' hcons
    cases hcons
    refine ⟨_, rfl, ?_, Nat.le_max_left _ _, ?_⟩
    · show q.curTick ≤ max a.tick (q.curTick + 1)
      omega
    · show max a.tick (q.curTick + 1) ≤ latest (some q.curTick) a
      rw [latest, Option.elim_some]
      omega

theorem fire_ok {idle : RespTarget → Bool} {rest : List WaitingPacket} (h : q.Timed last)
    (hlist : q.waiting = wp :: rest) (hworker : w.check idle wp.pkt.target = .ok ()) :
    ∃ q', q.handleDMACompletion w idle = .ok (wp, q') := by
  have hsched : ∃ q',
      schedDMACompletionEvent (nextTick ⟨rest, none, q.curTick⟩) ⟨rest, none, q.curTick⟩ =
      .ok q' := by
    cases rest with
    | nil => exact ⟨_, by rw [nextTick, schedDMACompletionEvent, if_neg (not_not.mpr rfl)]⟩
    | cons a rest =>
      have htick : a.tick < maxTick :=
        h.ticks a (by rw [hlist]; exact mem_cons_of_mem wp mem_cons_self)
      exact ⟨_, schedDMACompletionEvent_eq h.now htick⟩
  obtain ⟨q', hsched⟩ := hsched
  refine ⟨q', ?_⟩
  rw [handleDMACompletion]
  simp only [hlist, List.head?_cons, tail_cons, simSome_some, sim_ok_bind, hworker, hsched]
  rfl

end RespQueue

namespace RespRun

variable {s t : RespRun} {a : Action} {w : Workers}

structure Inv (s : RespRun) : Prop where
  timed : s.queue.Timed s.lastFiring
  sorted : s.queue.waiting.Pairwise Before
  numbered : Numbered (·.pkt.ptr) 0 s.arrived
  once : (s.handed.map Prod.fst ++ s.queue.waiting).Perm s.arrived
  onTime : ∀ x ∈ s.handed, x.1.tick ≤ x.2

theorem init_inv {tick : Nat} (htick : tick < maxTick) : (init tick).Inv :=
  ⟨⟨htick, fun _ h => (nomatch h), fun _ => rfl, fun _ _ h => (nomatch h)⟩, .nil, Numbered.nil,
  .refl _,
    fun _ h => (nomatch h)⟩

variable {wp : WaitingPacket}

theorem sorted_placed {l pre post : List WaitingPacket} (h : s.Inv)
    (hptr : wp.pkt.ptr = s.arrived.length)
    (hplaced : Placed (fun it => decide (it.tick ≤ wp.tick)) wp s.queue.waiting l pre post)
    (hstop : pre = [] ∨ ∃ pre' it, pre = pre' ++ [it] ∧ it.tick ≤ wp.tick) : l.Pairwise Before := by
  have hsorted := h.sorted
  have holder : ∀ b ∈ s.queue.waiting, b.pkt.ptr < wp.pkt.ptr := by
    intro b hb
    have hmem : b ∈ s.arrived := h.once.mem_iff.mp (mem_append_right _ hb)
    have hbounds := h.numbered.mem_bounds hmem
    omega
  apply hplaced.pairwise hsorted
  · intro b hb
    rcases hstop with rfl | ⟨pre', it, rfl, hit⟩
    · nomatch hb
    · have hptr := holder b (by rw [hplaced.before]; exact mem_append_left _ hb)
      have hle : b.tick ≤ wp.tick := by
        rcases mem_append.mp hb with hb | hb
        · rw [hplaced.before, append_assoc, pairwise_append] at hsorted
          have hbefore := hsorted.2.2 b hb it (by simp)
          unfold Before at hbefore
          omega
        · cases mem_singleton.mp hb
          exact hit
      unfold Before
      omega
  · intro b hb
    have hlater := hplaced.passed b hb
    rw [decide_eq_false_iff_not] at hlater
    exact .inl (by omega)

theorem recv_inv (h : s.Inv) (ha : s.BeforeMaxTick (.recv wp)) :
    ∃ t, s.step w (.recv wp) = .ok t ∧ t.Inv := by
  obtain ⟨⟨hptr, harrived, hnow⟩, htick⟩ := ha
  obtain ⟨q, pre, post, hcall, htimed, _, hplaced, hstop⟩ :=
    RespQueue.recv_spec h.timed hnow htick harrived
  refine ⟨{ s with queue := q, arrived := s.arrived ++ [wp] },
    by rw [step, hcall, sim_ok_bind]; rfl,
    htimed, sorted_placed h hptr hplaced hstop, ?_, ?_, h.onTime⟩
  · exact Numbered.append_iff.mpr ⟨h.numbered, Numbered.singleton_iff.mpr (by omega)⟩
  · calc (s.handed.map Prod.fst ++ q.waiting)
        |>.Perm (s.handed.map Prod.fst ++ wp :: s.queue.waiting) := hplaced.perm.append_left _
      _ |>.Perm (wp :: (s.handed.map Prod.fst ++ s.queue.waiting)) := perm_middle
      _ |>.Perm (wp :: s.arrived) := h.once.cons wp
      _ |>.Perm (s.arrived ++ [wp]) := (perm_append_singleton wp s.arrived).symm

variable {idle : RespTarget → Bool}

theorem fire_inv (h : s.Inv) (ha : s.BeforeMaxTick (.fire idle))
    (hstep : s.step w (.fire idle) = .ok t) : t.Inv := by
  obtain ⟨⟨wp, q⟩, hcall, hstep⟩ := bind_eq_ok.mp hstep
  cases hstep
  obtain ⟨hlist, _, htimed⟩ := RespQueue.fire_spec h.timed (wp, q) hcall
  obtain ⟨e, he, _, hready, _⟩ := h.timed.awake wp q.waiting hlist
  cases he.symm.trans ha.1
  have hsorted := h.sorted
  have honce := h.once
  rw [hlist] at hsorted honce
  refine ⟨htimed, hsorted.of_cons, h.numbered, ?_, ?_⟩
  · rw [map_append, append_assoc]
    exact honce
  · intro x hx
    rcases mem_append.mp hx with hx | hx
    · exact h.onTime x hx
    · cases mem_singleton.mp hx
      exact hready

theorem passTime_inv {tick : Nat} (h : s.Inv) (ha : s.BeforeMaxTick (.passTime tick)) :
    Inv { s with queue := { s.queue with curTick := tick } } := by
  refine ⟨⟨ha.2, h.timed.ticks, h.timed.asleep, ?_⟩, h.sorted, h.numbered, h.once, h.onTime⟩
  intro wp rest hlist
  obtain ⟨e, he, _, hready, hlatest⟩ := h.timed.awake wp rest hlist
  exact ⟨e, he, ha.1.2 e he, hready, hlatest⟩

theorem step_inv (h : s.Inv) (ha : s.BeforeMaxTick a) (hstep : s.step w a = .ok t) : t.Inv := by
  cases a with
  | recv wp =>
    obtain ⟨u, hu, hinv⟩ := recv_inv (w := w) h ha
    cases hu.symm.trans hstep
    exact hinv
  | fire idle => exact fire_inv h ha hstep
  | passTime tick =>
    cases hstep
    exact passTime_inv h ha

theorem reach_inv (hs : s.Inv) (hr : Reach (step w) BeforeMaxTick s t) : t.Inv :=
  hr.invariant hs step_inv

section Drain

theorem Inv.hand_next {rest : List WaitingPacket}
    (h : s.Inv) (hworker : w.check idle wp.pkt.target = .ok ())
    (hlist : s.queue.waiting = wp :: rest)
    (hroom : latest s.lastFiring wp < maxTick) :
    ∃ t e, Reach (step w) BeforeMaxTick s t ∧ t.queue.waiting = rest ∧ t.arrived = s.arrived ∧
      t.lastFiring = some e ∧ e ≤ latest s.lastFiring wp := by
  obtain ⟨e, he, hcur, _, hlatest⟩ := h.timed.awake wp rest hlist
  have hpass : s.BeforeMaxTick (.passTime e) := by
    refine ⟨⟨hcur, fun e' he' => ?_⟩, lt_of_le_of_lt hlatest hroom⟩
    cases he.symm.trans he'
    exact le_rfl
  have hinv := passTime_inv h hpass
  obtain ⟨q, hcall⟩ := RespQueue.fire_ok hinv.timed hlist hworker
  obtain ⟨hrest, _, _⟩ := RespQueue.fire_spec hinv.timed (wp, q) hcall
  have hfire : BeforeMaxTick { s with queue := { s.queue with curTick := e } } (.fire idle) :=
    ⟨he, trivial⟩
  have hstep : step w { s with queue := { s.queue with curTick := e } } (.fire idle) =
      .ok ⟨q, s.arrived, s.handed ++ [(wp, e)], some e⟩ := by
    rw [step, hcall]
    rfl
  exact ⟨_, e, (Reach.single hpass rfl).snoc hfire hstep,
    (List.cons.inj (hrest.symm.trans hlist)).2, rfl,
    rfl, hlatest⟩

theorem Inv.drains {n bound : Nat} (h : s.Inv) (hn : s.queue.waiting.length = n)
    (hworkers : ∀ wp ∈ s.queue.waiting, w.check idle wp.pkt.target = .ok ())
    (hbound : ∀ wp ∈ s.queue.waiting, latest s.lastFiring wp ≤ bound)
    (hroom : bound + n < maxTick) :
    ∃ t, Reach (step w) BeforeMaxTick s t ∧ t.queue.waiting = [] ∧ t.arrived = s.arrived := by
  induction n generalizing s bound with
  | zero => exact ⟨s, .refl s, eq_nil_of_length_eq_zero hn, rfl⟩
  | succ n ih =>
    cases hlist : s.queue.waiting with
    | nil =>
      rw [hlist] at hn
      nomatch hn
    | cons wp rest =>
      rw [hlist] at hn hworkers hbound
      have hfirst := hbound wp mem_cons_self
      obtain ⟨u, e, hu, hrest, harrived, hlast, he⟩ :=
        h.hand_next (hworkers wp mem_cons_self) hlist (by omega)
      have hbound' : ∀ a ∈ u.queue.waiting, latest u.lastFiring a ≤ bound + 1 := by
        intro a ha
        have hle := hbound a (mem_cons_of_mem wp (hrest ▸ ha))
        rw [latest] at hle
        rw [hlast, latest, Option.elim_some]
        omega
      have hworkers' : ∀ a ∈ u.queue.waiting, w.check idle a.pkt.target = .ok () :=
        fun a ha => hworkers a (mem_cons_of_mem wp (hrest ▸ ha))
      obtain ⟨t, ht, hempty, harrived'⟩ :=
        ih (reach_inv h hu) (by rw [hrest]; simpa using hn) hworkers'
        hbound' (by omega)
      exact ⟨t, hu.trans ht, hempty, harrived'.trans harrived⟩

end Drain

/-- What the queue promises in every state: order, an event exactly if a response waits and in time
for the first one, and every response either waits or has been handed over once, not before its
tick. -/
structure Delivers (s : RespRun) : Prop where
  sorted : s.queue.waiting.Pairwise Before
  scheduled : s.queue.dmaCompletionEvent.isSome ↔ s.queue.waiting ≠ []
  inTime : ∀ wp rest e, s.queue.waiting = wp :: rest → s.queue.dmaCompletionEvent = some e →
    e ≤ latest s.lastFiring wp
  once : (s.handed.map Prod.fst ++ s.queue.waiting).Perm s.arrived
  distinct : (s.arrived.map fun wp => wp.pkt.ptr).Nodup
  onTime : ∀ x ∈ s.handed, x.1.tick ≤ x.2

theorem Inv.delivers (h : s.Inv) : s.Delivers := by
  refine ⟨h.sorted, ?_, ?_, h.once, h.numbered.nodup_map, h.onTime⟩
  · cases hlist : s.queue.waiting with
    | nil => simp [h.timed.asleep hlist]
    | cons wp rest =>
      obtain ⟨e, he, _⟩ := h.timed.awake wp rest hlist
      simp [he]
  · intro wp rest e hlist he
    obtain ⟨e', he', _, _, hlatest⟩ := h.timed.awake wp rest hlist
    cases he.symm.trans he'
    exact hlatest

/-- In every run below `maxTick` the queue keeps its promises, and the responses that wait can all
be handed over if their workers take them and there is time. -/
theorem responses_delivered (w : Workers) {tick : Nat} (htick : tick < maxTick)
    (hr : Reach (step w) BeforeMaxTick (init tick) s) :
    s.Delivers ∧ ∀ idle bound, (∀ wp ∈ s.queue.waiting, w.check idle wp.pkt.target = .ok ()) →
      (∀ wp ∈ s.queue.waiting, latest s.lastFiring wp ≤ bound) →
      bound + s.queue.waiting.length < maxTick →
      ∃ t, Reach (step w) BeforeMaxTick s t ∧ (t.handed.map Prod.fst).Perm s.arrived := by
  have hinv := reach_inv (init_inv htick) hr
  refine ⟨hinv.delivers, fun idle bound hworkers hbound hroom => ?_⟩
  obtain ⟨t, ht, hempty, harrived⟩ := hinv.drains rfl hworkers hbound hroom
  have honce := (reach_inv hinv ht).once
  rw [hempty, append_nil, harrived] at honce
  exact ⟨t, ht, honce⟩

theorem responses_delivered_reordered :
    ∃ s, Reach (step ⟨1, 1⟩) BeforeMaxTick (init 0) s ∧ s.handed.length = 1 ∧
      s.queue.waiting.length = 1 ∧ s.Delivers := by
  obtain ⟨s, hr, hs⟩ := Reach.exists_of_runFrom (step ⟨1, 1⟩) BeforeMaxTick (init 0)
    [.recv ⟨7, ⟨0, 0, .rxDMA 0⟩⟩, .recv ⟨3, ⟨1, 0, .txDMA 0⟩⟩, .passTime 3, .fire fun _ => false]
    (fun s => s.handed.length = 1 ∧ s.queue.waiting.length = 1) (by decide +kernel)
  exact ⟨s, hr, hs.1, hs.2, (responses_delivered ⟨1, 1⟩ (by decide) hr).1⟩

/-- A response for `maxTick` waits without an event. A response for the present, after a firing at
tick 1, has its event at tick 11, later than its tick 10 and than tick 2. -/
theorem response_later_than_front :
    (∃ s, Reach (step ⟨1, 1⟩) Admissible (init 0) s ∧ s.queue.waiting ≠ [] ∧
      s.queue.dmaCompletionEvent = none) ∧
    ∃ s, Reach (step ⟨1, 1⟩) Admissible (init 0) s ∧ s.lastFiring = some 1 ∧
      s.queue.waiting.map (fun wp => wp.tick) = [10] ∧ s.queue.dmaCompletionEvent = some 11 := by
  constructor
  · exact Reach.exists_of_run [.recv ⟨maxTick, ⟨0, 0, .rxDMA 0⟩⟩] (by decide +kernel)
  · exact Reach.exists_of_run [.recv ⟨0, ⟨0, 0, .rxDMA 0⟩⟩, .passTime 1, .fire fun _ => false,
      .passTime 10, .recv ⟨10, ⟨1, 10, .rxDMA 0⟩⟩] (by decide +kernel)

end RespRun

end Gem5.DTA
