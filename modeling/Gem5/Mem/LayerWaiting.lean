import Gem5.Mem.XBarLayer
import Mathlib.Data.List.Nodup

/-!
# Waiting for a layer

Whenever a port waits, the layer is busy or its peer owes a retry, so something is still to
happen that lets the next port try again; and the next port is the one that `Line` says.
-/

namespace Gem5.Mem

open Option

open List

theorem ne_idle_of_busy {state : LayerState} (h : state = .busy) : state ≠ .idle := by
  rw [h]
  decide

namespace Layer

variable {P : Type} {l : Layer P} {p : P} {busyTime : Nat}

theorem occupyLayer_eq (hstate : l.state = .busy) (hevent : l.releaseEvent = none)
    (hne : busyTime ≠ 0) (hle : l.curTick ≤ busyTime) :
    l.occupyLayer busyTime = .ok { l with releaseEvent := some busyTime } := by
  unfold occupyLayer
  rw [simAssert_of (decide_eq_true hstate), simAssert_of (decide_eq_true hne),
    simAssert_of (by rw [hevent, decide_eq_true hle]; rfl)]
  rfl

theorem succeededTiming_eq (hstate : l.state = .busy) (hevent : l.releaseEvent = none)
    (hne : busyTime ≠ 0) (hle : l.curTick ≤ busyTime) :
    l.succeededTiming busyTime = .ok { l with releaseEvent := some busyTime } := by
  unfold succeededTiming
  rw [simAssert_of (decide_eq_true hstate)]
  exact occupyLayer_eq hstate hevent hne hle

theorem failedTiming_eq (hpeer : l.waitingForPeer = none) (hstate : l.state = .busy)
    (hevent : l.releaseEvent = none) (hne : busyTime ≠ 0) (hle : l.curTick ≤ busyTime) :
    l.failedTiming p busyTime =
      .ok { l with waitingForPeer := some p, releaseEvent := some busyTime } := by
  unfold failedTiming
  rw [simAssert_of (by rw [hpeer]; rfl), simAssert_of (decide_eq_true hstate)]
  exact occupyLayer_eq hstate hevent hne hle

theorem retryOne_eq {rest : List P} (hwait : l.waitingForLayer = p :: rest)
    (hstate : l.state = .idle) :
    l.retryOne = .ok (some p, { l with state := .retry, waitingForLayer := rest }) := by
  unfold retryOne retryWaiting
  rw [hwait, simAssert_of (decide_eq_true hstate)]
  rfl

theorem tryTiming_refused [DecidableEq P] (h : l.state = .busy ∨ l.waitingForPeer.isSome)
    (hnot : p ∉ l.waitingForLayer) :
    l.tryTiming p = .ok (false, { l with waitingForLayer := l.waitingForLayer ++ [p] }) := by
  unfold tryTiming
  rw [if_pos h, simAssert_of (decide_eq_true hnot)]
  rfl

theorem tryTiming_granted [DecidableEq P] (h : ¬ (l.state = .busy ∨ l.waitingForPeer.isSome)) :
    l.tryTiming p = .ok (true, { l with state := .busy }) := by
  unfold tryTiming
  rw [if_neg h]
  rfl

theorem recvRetry_busy (hp : l.waitingForPeer = some p) (hstate : l.state = .busy) :
    l.recvRetry = .ok (none, { l with
      waitingForLayer := p :: l.waitingForLayer, waitingForPeer := none }) := by
  unfold recvRetry
  rw [hp, simSome_some, sim_ok_bind, if_neg (by rw [hstate]; decide),
    simAssert_of (decide_eq_true hstate)]
  rfl

theorem recvRetry_idle (hp : l.waitingForPeer = some p) (hstate : l.state = .idle) :
    l.recvRetry = .ok (some p, { l with waitingForPeer := none, state := .retry }) := by
  unfold recvRetry
  rw [hp, simSome_some, sim_ok_bind, if_pos hstate]
  exact retryOne_eq rfl hstate

theorem releaseLayer_retry {rest : List P} (hstate : l.state = .busy)
    (hevent : l.releaseEvent = none)
    (hwait : l.waitingForLayer = p :: rest) (hpeer : l.waitingForPeer = none) :
    l.releaseLayer = .ok (some p, { l with state := .retry, waitingForLayer := rest }) := by
  unfold releaseLayer
  rw [simAssert_of (decide_eq_true hstate), simAssert_of (by rw [hevent]; rfl),
    if_pos (by rw [hwait]; exact cons_ne_nil p rest), if_pos (by rw [hpeer]; rfl)]
  exact retryOne_eq hwait rfl

theorem releaseLayer_idle (hstate : l.state = .busy) (hevent : l.releaseEvent = none)
    (hwait : l.waitingForLayer ≠ [] → l.waitingForPeer ≠ none) : ∃ draining,
    l.releaseLayer = .ok (none, { l with state := .idle, draining := draining }) := by
  unfold releaseLayer
  rw [simAssert_of (decide_eq_true hstate), simAssert_of (by rw [hevent]; rfl)]
  dsimp only
  split
  · rename_i hne
    rw [if_neg (by simpa using hwait hne)]
    exact ⟨_, rfl⟩
  · split <;> exact ⟨_, rfl⟩

end Layer

namespace Line

variable {P : Type} [DecidableEq P] {log : List (Note P)} {ln : Line P} {n : Note P}

theorem replay_snoc (h : replay log = some ln) : replay (log ++ [n]) = ln.note n := by
  rw [replay, foldlM_append]
  change (replay log).bind _ = _
  rw [h]
  exact bind_fun_some _

end Line

namespace LayerRun

variable {P : Type} [DecidableEq P] {clock : Clock} {s t : LayerRun P} {a : Action P}

structure NeverStrands (s : LayerRun P) : Prop where
  busy_iff : s.layer.state = .busy ↔ s.layer.releaseEvent ≠ none
  not_retry : s.layer.state ≠ .retry
  once : s.layer.waitingForLayer.Nodup
  awake : s.layer.waitingForLayer ≠ [] → s.layer.state = .busy ∨ s.layer.waitingForPeer ≠ none

structure InLine (s : LayerRun P) (ln : Line P) : Prop where
  replay : Line.replay s.log = some ln
  layer : s.layer.waitingForLayer = ln.first.toList ++ ln.line
  peer : s.layer.waitingForPeer = ln.blocked
  first : ln.first ≠ none →
    s.layer.state = .busy ∧ s.layer.waitingForPeer = none ∧ s.forwarding = none

structure Inv (s : LayerRun P) : Prop where
  event : ∀ e, s.layer.releaseEvent = some e →
    s.layer.state = .busy ∧ s.forwarding = none ∧ s.layer.curTick ≤ e ∧ 0 < e
  busy : s.layer.state = .busy → s.layer.releaseEvent ≠ none ∨ s.forwarding ≠ none
  retry : s.layer.state = .retry →
    s.retrying = true ∧ s.layer.waitingForPeer = none ∧ s.forwarding = none
  forwards : ∀ p, s.forwarding = some p → s.layer.state = .busy ∧ s.layer.releaseEvent = none ∧
    s.layer.waitingForPeer = none ∧ p ∉ s.layer.waitingForLayer
  retrying : s.retrying = true → s.layer.state ≠ .idle ∧ 0 < s.layer.curTick
  nodup : (s.layer.waitingForPeer.toList ++ s.layer.waitingForLayer).Nodup
  awake : s.layer.waitingForLayer ≠ [] → s.layer.state ≠ .idle ∨ s.layer.waitingForPeer ≠ none
  peer : s.layer.waitingForPeer ≠ none →
    s.layer.state = .busy ∨ (s.layer.state = .idle ∧ 0 < s.layer.curTick)
  line : ∃ ln, s.InLine ln

theorem init_inv (draining : Bool) (curTick : Nat) : (init draining curTick : LayerRun P).Inv where
  event _ he := (nomatch he)
  busy hb := (nomatch hb)
  retry hr := (nomatch hr)
  forwards _ hp := (nomatch hp)
  retrying hr := (nomatch hr)
  nodup := nodup_nil
  awake hne := absurd rfl hne
  peer hne := absurd rfl hne
  line := ⟨⟨[], none, none⟩, rfl, rfl, rfl, fun hne => absurd rfl hne⟩

theorem Inv.neverStrands (h : s.Inv) (hb : s.BetweenCalls) : s.NeverStrands where
  busy_iff := by
    constructor
    · intro hbusy
      exact (h.busy hbusy).resolve_right fun hf => hf hb.1
    · intro he
      obtain ⟨e, he⟩ := ne_none_iff_exists'.mp he
      exact (h.event e he).1
  not_retry hr := by
    have := (h.retry hr).1
    rw [hb.2] at this
    cases this
  once := (nodup_append.mp h.nodup).2.1
  awake hne := by
    rcases h.awake hne with hidle | hpeer
    · cases hstate : s.layer.state with
      | idle => exact absurd hstate hidle
      | busy => exact .inl rfl
      | retry =>
        have := (h.retry hstate).1
        rw [hb.2] at this
        cases this
    · exact .inr hpeer

section Steps

theorem Inv.no_event (h : s.Inv) (hb : s.layer.state ≠ .busy) : s.layer.releaseEvent = none := by
  cases he : s.layer.releaseEvent with
  | none => rfl
  | some e => exact absurd (h.event e he).1 hb

theorem InLine.no_first {ln : Line P} (h : s.InLine ln) (hb : s.layer.state ≠ .busy) :
    ln.first = none := by
  by_contra hne
  exact hb (h.first hne).1

theorem tryTiming_inv (h : s.Inv) {p : P} (ha : s.Enabled (.tryTiming p)) :
    ∃ t, step clock s (.tryTiming p) = .ok t ∧ t.Inv := by
  obtain ⟨hlayer, hpeer, hforward⟩ := ha
  obtain ⟨ln, hln⟩ := h.line
  by_cases hbusy : s.layer.state = .busy ∨ s.layer.waitingForPeer.isSome
  · rw [step, Layer.tryTiming_refused hbusy hlayer]
    refine ⟨_, rfl, h.event, h.busy, h.retry, ?_, h.retrying, ?_, fun _ => ?_, h.peer,
      { ln with line := ln.line ++ [p] }, Line.replay_snoc hln.replay, ?_, hln.peer, hln.first⟩
    · intro q hq
      obtain ⟨h1, h2, h3, h4⟩ := h.forwards q hq
      refine ⟨h1, h2, h3, fun hmem => ?_⟩
      rcases mem_append.mp hmem with hmem | hmem
      · exact h4 hmem
      · rw [mem_singleton.mp hmem] at hq
        exact hforward hq
    · have hnot : p ∉ s.layer.waitingForPeer.toList ++ s.layer.waitingForLayer := by
        rw [mem_append, mem_toList]
        rintro (hmem | hmem)
        · exact hpeer hmem
        · exact hlayer hmem
      have hnew := nodup_append.mpr ⟨h.nodup, nodup_singleton p, fun a ha b hb heq => ?_⟩
      · rwa [append_assoc] at hnew
      · rw [heq, mem_singleton.mp hb] at ha
        exact hnot ha
    · rcases hbusy with hbusy | hsome
      · exact .inl (ne_idle_of_busy hbusy)
      · exact .inr (isSome_iff_ne_none.mp hsome)
    · change s.layer.waitingForLayer ++ [p] = _
      rw [hln.layer, append_assoc]
  · rw [step, Layer.tryTiming_granted hbusy]
    have hstate : s.layer.state ≠ .busy := fun hb => hbusy (.inl hb)
    have hnone : s.layer.waitingForPeer = none := by
      cases hw : s.layer.waitingForPeer with
      | none => rfl
      | some q => exact absurd (.inr (by rw [hw]; rfl)) hbusy
    have hevent := h.no_event hstate
    refine ⟨_, rfl, fun e he => ?_, fun _ => .inr (some_ne_none p), fun hr => (nomatch hr),
      fun q hq => ?_, fun hr => ⟨(fun hi => nomatch hi), (h.retrying hr).2⟩, h.nodup,
      fun _ => .inl (fun hi => nomatch hi),
      fun hp => absurd hnone hp, ln, hln.replay, hln.layer, hln.peer, fun hfirst => ?_⟩
    · cases hevent.symm.trans he
    · cases hq
      exact ⟨rfl, hevent, hnone, hlayer⟩
    · exact absurd (hln.no_first hstate) hfirst

theorem succeededTiming_inv (h : s.Inv) {busyTime : Nat}
    (ha : s.Enabled (.succeededTiming busyTime)) :
    ∃ t, step clock s (.succeededTiming busyTime) = .ok t ∧ t.Inv := by
  obtain ⟨hforward, hne, hle⟩ := ha
  obtain ⟨p, hp⟩ := ne_none_iff_exists'.mp hforward
  obtain ⟨hstate, hevent, hpeer, _⟩ := h.forwards p hp
  obtain ⟨ln, hln⟩ := h.line
  rw [step, Layer.succeededTiming_eq hstate hevent hne hle]
  refine ⟨_, rfl, fun e he => ?_, fun _ => .inl (some_ne_none _), fun hr => ?_,
    fun _ hq => (nomatch hq), h.retrying, h.nodup, h.awake, h.peer, ln, hln.replay, hln.layer,
    hln.peer,
    fun hfirst => ⟨hstate, hpeer, rfl⟩⟩
  · cases he
    exact ⟨hstate, rfl, hle, Nat.pos_of_ne_zero hne⟩
  · exact ⟨(h.retry hr).1, hpeer, rfl⟩

theorem failedTiming_inv (h : s.Inv) {p : P} {busyTime : Nat}
    (ha : s.Enabled (.failedTiming p busyTime)) :
    ∃ t, step clock s (.failedTiming p busyTime) = .ok t ∧ t.Inv := by
  obtain ⟨hp, hne, hle⟩ := ha
  obtain ⟨hstate, hevent, hpeer, hnot⟩ := h.forwards p hp
  obtain ⟨ln, hln⟩ := h.line
  have hfirst : ln.first = none := by
    by_contra hne
    have hforward := (hln.first hne).2.2
    rw [hp] at hforward
    cases hforward
  rw [step, Layer.failedTiming_eq hpeer hstate hevent hne hle]
  refine ⟨_, rfl, fun e he => ?_, fun _ => .inl (some_ne_none _), fun hr => ?_,
    fun _ hq => (nomatch hq), h.retrying, ?_, fun _ => .inr (some_ne_none p),
    fun _ => .inl hstate, { ln with blocked := some p }, Line.replay_snoc hln.replay,
      hln.layer, rfl,
    fun hne => absurd hfirst hne⟩
  · cases he
    exact ⟨hstate, rfl, hle, Nat.pos_of_ne_zero hne⟩
  · cases hstate.symm.trans hr
  · have hnodup := h.nodup
    rw [hpeer] at hnodup
    exact nodup_cons.mpr ⟨hnot, hnodup⟩

theorem retried_inv {l : Layer P} {p : P} {rest : List P} {notes : List (Note P)} {ln : Line P}
    (hforward : s.forwarding = none) (hevent : l.releaseEvent = none)
    (hpeer : l.waitingForPeer = none)
    (hcur : 0 < l.curTick) (hnodup : rest.Nodup)
    (hreplay : Line.replay (s.log ++ notes) = some ln) (hblocked : ln.blocked = none)
    (hwait : p :: rest = ln.first.toList ++ ln.line) :
    (s.called notes (some p, { l with state := .retry, waitingForLayer := rest })).Inv := by
  have hline : ∃ ln', Line.replay (s.log ++ notes ++ [Note.retried p]) = some ln' ∧
      rest = ln'.line ∧ ln'.blocked = none ∧ ln'.first = none := by
    rw [Line.replay_snoc hreplay]
    unfold Line.note Line.next
    cases hfirst : ln.first with
    | some q =>
      rw [hfirst] at hwait
      obtain ⟨rfl, hrest⟩ := List.cons.inj hwait
      exact ⟨_, if_pos rfl, hrest, hblocked, rfl⟩
    | none =>
      rw [hfirst] at hwait
      have hhead : (none <|> ln.line.head?) = some p := by
        rw [show ln.line = p :: rest from hwait.symm]
        rfl
      refine ⟨_, if_pos hhead, ?_, hblocked, rfl⟩
      rw [show ln.line = p :: rest from hwait.symm]
      rfl
  obtain ⟨ln', hreplay', hrest, hblocked', hfirst'⟩ := hline
  refine ⟨fun e he => ?_, fun hb => (nomatch hb), fun _ => ⟨rfl, hpeer, hforward⟩, fun q hq => ?_,
    fun _ => ⟨(fun hi => nomatch hi), hcur⟩, ?_, fun _ => .inl (fun hi => nomatch hi),
    fun hne => absurd hpeer hne,
    ln', hreplay', ?_, hpeer.trans hblocked'.symm, fun hne => absurd hfirst' hne⟩
  · cases hevent.symm.trans he
  · cases hforward.symm.trans hq
  · rw [hpeer]
    exact hnodup
  · rw [hfirst']
    exact hrest

theorem recvRetry_inv (h : s.Inv) (ha : s.Enabled .recvRetry) :
    ∃ t, step clock s .recvRetry = .ok t ∧ t.Inv := by
  obtain ⟨p, hp⟩ := ne_none_iff_exists'.mp ha
  obtain ⟨ln, hln⟩ := h.line
  have hfirst : ln.first = none := by
    by_contra hne
    exact ha (hln.first hne).2.1
  have hforward : s.forwarding = none := by
    cases hf : s.forwarding with
    | none => rfl
    | some q => exact absurd (h.forwards q hf).2.2.1 ha
  have hblocked : ln.blocked = some p := hln.peer.symm.trans hp
  have hreplay : Line.replay (s.log ++ [Note.peerReady]) =
      some { ln with blocked := none, first := some p } := by
    rw [Line.replay_snoc hln.replay, Line.note, hblocked]
  have hline : p :: s.layer.waitingForLayer = p :: ln.line := by
    rw [hln.layer, hfirst]
    rfl
  have hnodup : (p :: s.layer.waitingForLayer).Nodup := by
    have hnodup := h.nodup
    rwa [hp] at hnodup
  rcases h.peer ha with hbusy | ⟨hidle, hcur⟩
  · rw [step, Layer.recvRetry_busy hp hbusy]
    refine ⟨_, rfl, h.event, h.busy, fun hr => ⟨(h.retry hr).1, rfl, hforward⟩, fun q hq => ?_,
      h.retrying, hnodup, fun _ => .inl (ne_idle_of_busy hbusy),
      fun hne => absurd rfl hne, _, hreplay, hline, rfl, fun _ => ⟨hbusy, rfl, hforward⟩⟩
    cases hforward.symm.trans hq
  · have hstate : s.layer.state ≠ .busy := by
      rw [hidle]
      decide
    rw [step, Layer.recvRetry_idle hp hidle]
    refine ⟨_, rfl, ?_⟩
    exact retried_inv (l :=
      { s.layer with waitingForPeer := none }) hforward (h.no_event hstate) rfl
      hcur (nodup_cons.mp hnodup).2 hreplay rfl hline

theorem releaseLayer_inv (h : s.Inv) (ha : s.Enabled .releaseLayer) :
    ∃ t, step clock s .releaseLayer = .ok t ∧ t.Inv := by
  obtain ⟨⟨hforward, hretrying⟩, hevent⟩ := ha
  obtain ⟨hbusy, _, _, hpos⟩ := h.event _ hevent
  obtain ⟨ln, hln⟩ := h.line
  by_cases hwait : s.layer.waitingForLayer ≠ [] → s.layer.waitingForPeer ≠ none
  · obtain ⟨draining, hcall⟩ := Layer.releaseLayer_idle (l := { s.layer with releaseEvent := none })
      hbusy rfl hwait
    rw [step, hcall]
    refine ⟨_, rfl, fun _ he => (nomatch he), fun hb => (nomatch hb), fun hr => (nomatch hr),
      fun q hq => ?_, fun hr => ?_, h.nodup, fun hne => .inr (hwait hne),
      fun _ => .inr ⟨rfl, hpos⟩, ln,
      ?_, hln.layer, hln.peer, fun hne => ?_⟩
    · cases hforward.symm.trans hq
    · cases hretrying.symm.trans hr
    · change Line.replay (s.log ++ []) = some ln
      rw [append_nil]
      exact hln.replay
    · -- a port that is first waits for the layer, and not for the peer
      exfalso
      have hlayer : s.layer.waitingForLayer ≠ [] := by
        rw [hln.layer]
        intro hnil
        exact hne (toList_eq_nil_iff.mp (append_eq_nil_iff.mp hnil).1)
      exact hwait hlayer (hln.first hne).2.1
  · obtain ⟨hlayer, hpeer⟩ := Classical.not_imp.mp hwait
    have hpeer := not_not.mp hpeer
    obtain ⟨p, rest, hlayer⟩ := exists_cons_of_ne_nil hlayer
    rw [step, Layer.releaseLayer_retry (l := { s.layer with releaseEvent := none }) hbusy rfl hlayer
      hpeer]
    refine ⟨_, rfl, ?_⟩
    have hnodup := (nodup_append.mp h.nodup).2.1
    rw [hlayer] at hnodup
    refine retried_inv (l := { s.layer with releaseEvent := none }) hforward rfl hpeer hpos
      (nodup_cons.mp hnodup).2 ?_ (hln.peer.symm.trans hpeer) (hlayer.symm.trans hln.layer)
    rw [append_nil]
    exact hln.replay

theorem retryReturned_inv (h : s.Inv) (ha : s.Enabled .retryReturned) :
    ∃ t, step clock s .retryReturned = .ok t ∧ t.Inv := by
  obtain ⟨hforward, hretrying⟩ := ha
  obtain ⟨ln, hln⟩ := h.line
  have hcur := (h.retrying hretrying).2
  rw [step, Layer.retryReturned]
  by_cases hstate : s.layer.state = .retry
  · have hnot : s.layer.state ≠ .busy := by
      rw [hstate]
      decide
    have hedge := clock.le_edge s.layer.curTick
    have hpeer := (h.retry hstate).2.1
    rw [if_pos hstate,
      Layer.occupyLayer_eq (l := { s.layer with state := .busy }) rfl (h.no_event hnot)
      (by omega) hedge]
    refine ⟨_, rfl, fun e he => ?_, fun _ => .inl (some_ne_none _), fun hr => (nomatch hr),
      fun q hq => ?_, fun hr => (nomatch hr), h.nodup, fun _ => .inl (fun hi => nomatch hi),
      fun hne => absurd hpeer hne, ln, hln.replay, hln.layer, hln.peer, fun hne => ?_⟩
    · cases he
      exact ⟨rfl, hforward, hedge, by omega⟩
    · cases hforward.symm.trans hq
    · exact absurd (hln.no_first hnot) hne
  · rw [if_neg hstate]
    exact ⟨_, rfl, h.event, h.busy, fun hr => absurd hr hstate, h.forwards, fun hr => (nomatch hr),
      h.nodup, h.awake, h.peer, ln, hln.replay, hln.layer, hln.peer, hln.first⟩

theorem passTime_inv (h : s.Inv) {tick : Nat} (ha : s.Enabled (.passTime tick)) :
    ∃ t, step clock s (.passTime tick) = .ok t ∧ t.Inv := by
  obtain ⟨_, hle, hbefore⟩ := ha
  obtain ⟨ln, hln⟩ := h.line
  refine ⟨_, rfl, fun e he => ?_, h.busy, h.retry, h.forwards, fun hr => ?_, h.nodup, h.awake,
    fun hne => ?_, ln, hln.replay, hln.layer, hln.peer, hln.first⟩
  · obtain ⟨hstate, hforward, _, hpos⟩ := h.event e he
    exact ⟨hstate, hforward, hbefore e he, hpos⟩
  · exact ⟨(h.retrying hr).1, Nat.lt_of_lt_of_le (h.retrying hr).2 hle⟩
  · rcases h.peer hne with hbusy | ⟨hidle, hcur⟩
    · exact .inl hbusy
    · exact .inr ⟨hidle, Nat.lt_of_lt_of_le hcur hle⟩

end Steps

theorem step_inv (clock : Clock) (h : s.Inv) (ha : s.Enabled a) :
    ∃ t, step clock s a = .ok t ∧ t.Inv := by
  cases a with
  | tryTiming p => exact tryTiming_inv h ha
  | succeededTiming busyTime => exact succeededTiming_inv h ha
  | failedTiming p busyTime => exact failedTiming_inv h ha
  | recvRetry => exact recvRetry_inv h ha
  | releaseLayer => exact releaseLayer_inv h ha
  | retryReturned => exact retryReturned_inv h ha
  | passTime tick => exact passTime_inv h ha

/-- Between the calls of every run no port is stranded, the refused ports wait and are retried in
the order of their line, and every further call returns. -/
theorem never_strands (clock : Clock) (draining : Bool) (curTick : Nat)
    (h : Reach (step clock) Enabled (init draining curTick : LayerRun P) s) :
    (s.BetweenCalls → s.NeverStrands) ∧
      (∃ ln, Line.replay s.log = some ln ∧ s.layer.waitingForLayer = ln.first.toList ++ ln.line ∧
        s.layer.waitingForPeer = ln.blocked) ∧
      ∀ a, s.Enabled a → ∃ t, step clock s a = .ok t := by
  have hinv : s.Inv := h.invariant (P := Inv) (init_inv draining curTick) fun hi ha hstep => by
    obtain ⟨t, ht, hinv⟩ := step_inv clock hi ha
    cases hstep.symm.trans ht
    exact hinv
  obtain ⟨ln, hln⟩ := hinv.line
  refine ⟨hinv.neverStrands, ⟨ln, hln.replay, hln.layer, hln.peer⟩, fun a ha => ?_⟩
  obtain ⟨t, ht, _⟩ := step_inv clock hinv ha
  exact ⟨t, ht⟩

theorem never_strands_two_ports : ∃ s : LayerRun Bool,
    Reach (step ⟨id, 1, Nat.le_refl⟩) Enabled (init false 0) s ∧ s.BetweenCalls ∧
      s.log = [.peerRefused true, .refused false, .peerReady, .retried true] ∧ s.NeverStrands := by
  obtain ⟨s, hrun, hbetween, hlog⟩ :
      ∃ s, Reach (step ⟨id, 1, Nat.le_refl⟩) Enabled (init false 0 : LayerRun Bool) s ∧
      (s.forwarding = none ∧ s.retrying = false) ∧
      s.log = [.peerRefused true, .refused false, .peerReady, .retried true] :=
    Reach.exists_of_run [.tryTiming true, .failedTiming true 10, .tryTiming false, .passTime 10,
      .releaseLayer, .recvRetry, .tryTiming true, .succeededTiming 20, .retryReturned]
      (by decide +kernel)
  exact ⟨s, hrun, hbetween, hlog, (never_strands ⟨id, 1, Nat.le_refl⟩ false 0 hrun).1 hbetween⟩

end LayerRun

end Gem5.Mem
