import Gem5.Mem.LayerWaiting

/-!
# Draining a layer of the crossbar

The drain manager asks the layer to drain and keeps its answer; a layer that said it drains
tells the manager once it is done. `DrainRun` counts how often it does.
-/

namespace Gem5.Mem

inductive DrainPhase where
  | running
  | draining
  | drained
  deriving DecidableEq

namespace Layer

variable {P : Type} {l m : Layer P} {p : P} {busyTime : Nat}

def drain (l : Layer P) : DrainPhase := if l.state ≠ .idle then .draining else .drained

def Quiet (l : Layer P) : Prop :=
  l.state = .idle ∧ l.waitingForLayer = [] ∧ l.waitingForPeer = none

def AwaitsPeer (l : Layer P) : Prop := l.state = .idle ∧ l.waitingForPeer ≠ none

structure SameDrain (l m : Layer P) : Prop where
  draining : m.draining = l.draining
  busy : m.Quiet → l.Quiet

theorem occupyLayer_draining (h : l.occupyLayer busyTime = .ok m) :
    m.draining = l.draining ∧ m.state = .busy := by
  obtain ⟨_, hbusy, h⟩ := bind_eq_ok.mp h
  obtain ⟨_, _, h⟩ := bind_eq_ok.mp h
  obtain ⟨_, _, rfl⟩ := map_eq_ok.mp h
  exact ⟨rfl, of_decide_eq_true (simAssert_eq_ok.mp hbusy)⟩

theorem SameDrain.of_state (hdraining : m.draining = l.draining) (hstate : m.state ≠ .idle) :
    SameDrain l m :=
  ⟨hdraining, fun hq => absurd hq.1 hstate⟩

theorem tryTiming_sameDrain [DecidableEq P] {r : Bool × Layer P} (h : l.tryTiming p = .ok r) :
    SameDrain l r.2 := by
  unfold tryTiming at h
  split at h
  · obtain ⟨_, _, rfl⟩ := map_eq_ok.mp h
    exact ⟨rfl,
      fun hq => absurd hq.2.1 (List.append_ne_nil_of_right_ne_nil _ (List.cons_ne_nil _ _))⟩
  · cases h
    exact .of_state rfl (ne_idle_of_busy rfl)

theorem succeededTiming_sameDrain (h : l.succeededTiming busyTime = .ok m) : SameDrain l m := by
  obtain ⟨_, _, h⟩ := bind_eq_ok.mp h
  obtain ⟨hdraining, hstate⟩ := occupyLayer_draining h
  exact .of_state hdraining (ne_idle_of_busy hstate)

theorem failedTiming_sameDrain (h : l.failedTiming p busyTime = .ok m) : SameDrain l m := by
  obtain ⟨_, _, h⟩ := bind_eq_ok.mp h
  obtain ⟨_, _, h⟩ := bind_eq_ok.mp h
  obtain ⟨hdraining, hstate⟩ := occupyLayer_draining h
  exact .of_state hdraining (ne_idle_of_busy hstate)

variable {r : Option P × Layer P}

theorem retryOne_draining (h : l.retryOne = .ok r) :
    r.2.draining = l.draining ∧ r.2.state = .retry := by
  obtain ⟨q, hq, rfl⟩ := map_eq_ok.mp h
  obtain ⟨_, _, hq⟩ := bind_eq_ok.mp hq
  obtain ⟨_, _, rfl⟩ := map_eq_ok.mp hq
  exact ⟨rfl, rfl⟩

theorem SameDrain.of_retryOne (h : m.retryOne = .ok r)
    (hdraining : m.draining = l.draining) : SameDrain l r.2 := by
  obtain ⟨hsame, hstate⟩ := retryOne_draining h
  exact .of_state (hsame.trans hdraining) (by rw [hstate]; decide)

theorem recvRetry_sameDrain (h : l.recvRetry = .ok r) : SameDrain l r.2 := by
  obtain ⟨_, _, h⟩ := bind_eq_ok.mp h
  dsimp only at h
  split at h
  · exact .of_retryOne h rfl
  · obtain ⟨_, hbusy, rfl⟩ := map_eq_ok.mp h
    exact .of_state rfl (ne_idle_of_busy (of_decide_eq_true (simAssert_eq_ok.mp hbusy)))

theorem retryReturned_sameDrain {clock : Clock} (h : l.retryReturned clock = .ok m) :
    SameDrain l m := by
  unfold retryReturned at h
  split at h
  · obtain ⟨hdraining, hstate⟩ := occupyLayer_draining h
    exact .of_state hdraining (ne_idle_of_busy hstate)
  · cases h
    exact ⟨rfl, id⟩

theorem releaseLayer_draining (h : l.releaseLayer = .ok r) :
    (r.2.Quiet ∧ r.2.draining = false) ∨ (¬ r.2.Quiet ∧ r.2.draining = l.draining) := by
  obtain ⟨_, _, h⟩ := bind_eq_ok.mp h
  obtain ⟨_, _, h⟩ := bind_eq_ok.mp h
  dsimp only at h
  split at h
  · rename_i hwait
    split at h
    · obtain ⟨hdraining, hstate⟩ := retryOne_draining h
      refine .inr ⟨fun hq => ?_, hdraining⟩
      cases hstate.symm.trans hq.1
    · cases h
      exact .inr ⟨fun hq => hwait hq.2.1, rfl⟩
  · rename_i hwait
    have hempty : l.waitingForLayer = [] := by simpa using hwait
    split at h
    · rename_i hdone
      cases h
      exact .inl ⟨⟨rfl, hempty, Option.isNone_iff_eq_none.mp hdone.1⟩, rfl⟩
    · rename_i hgoes
      cases h
      by_cases hpeer : l.waitingForPeer = none
      · refine .inl ⟨⟨rfl, hempty, hpeer⟩, ?_⟩
        have hnot : ¬ l.draining = true := fun hd => hgoes ⟨by rw [hpeer]; rfl, hd⟩
        simpa using hnot
      · exact .inr ⟨fun hq => hpeer hq.2.2, rfl⟩

end Layer

/-- A run with the number of calls of `signalDrainDone`. -/
structure DrainRun (P : Type) where
  run : LayerRun P
  signals : Nat

namespace DrainRun

variable {P : Type} [DecidableEq P] {clock : Clock} {s t : DrainRun P} {a : LayerRun.Action P}

inductive Action (P : Type) where
  | call (a : LayerRun.Action P)
  | dmDrain
  | dmDrainResume

def init (curTick : Nat) : DrainRun P := ⟨.init false curTick, 0⟩

/-- `_drainState` is draining. -/
def setDraining (draining : Bool) (s : DrainRun P) : DrainRun P :=
  { s with run := { s.run with layer := { s.run.layer with draining := draining } } }

/-- `signalDrainDone` is what ends the draining of a layer. -/
def step (clock : Clock) (s : DrainRun P) : Action P → Sim (DrainRun P)
  | .call a => do
    let r ← LayerRun.step clock s.run a
    pure ⟨r, if s.run.layer.draining && !r.layer.draining then s.signals + 1 else s.signals⟩
  | .dmDrain => pure (s.setDraining (decide (s.run.layer.drain = .draining)))
  | .dmDrainResume => pure (s.setDraining false)

def Enabled (s : DrainRun P) : Action P → Prop
  | .call a => s.run.Enabled a
  | .dmDrain | .dmDrainResume => True

instance {s : DrainRun P} : (a : Action P) → Decidable (s.Enabled a)
  | .call a => inferInstanceAs (Decidable (s.run.Enabled a))
  | .dmDrain | .dmDrainResume => inferInstanceAs (Decidable True)

theorem setDraining_inv (h : s.run.Inv) (draining : Bool) : (s.setDraining draining).run.Inv := by
  obtain ⟨ln, hln⟩ := h.line
  exact ⟨h.event, h.busy, h.retry, h.forwards, h.retrying, h.nodup, h.awake, h.peer, ln,
    hln.replay, hln.layer, hln.peer, hln.first⟩

theorem call_draining (h : step clock s (.call a) = .ok t) :
    Layer.SameDrain s.run.layer t.run.layer ∨ (t.run.layer.Quiet ∧ t.run.layer.draining = false) ∨
      (¬ t.run.layer.Quiet ∧ t.run.layer.draining = s.run.layer.draining) := by
  obtain ⟨r, hr, rfl⟩ := map_eq_ok.mp h
  cases a with
  | tryTiming p =>
    obtain ⟨q, hq, rfl⟩ := map_eq_ok.mp hr
    have hsame := Layer.tryTiming_sameDrain hq
    obtain ⟨granted, l⟩ := q
    cases granted with
    | true => exact .inl hsame
    | false => exact .inl hsame
  | succeededTiming busyTime =>
    obtain ⟨l, hl, rfl⟩ := map_eq_ok.mp hr
    exact .inl (Layer.succeededTiming_sameDrain hl)
  | failedTiming p busyTime =>
    obtain ⟨l, hl, rfl⟩ := map_eq_ok.mp hr
    exact .inl (Layer.failedTiming_sameDrain hl)
  | recvRetry =>
    obtain ⟨q, hq, rfl⟩ := map_eq_ok.mp hr
    have hsame := Layer.recvRetry_sameDrain hq
    obtain ⟨port, l⟩ := q
    cases port with
    | none => exact .inl hsame
    | some p => exact .inl hsame
  | releaseLayer =>
    obtain ⟨q, hq, rfl⟩ := map_eq_ok.mp hr
    have hdone := Layer.releaseLayer_draining hq
    obtain ⟨port, l⟩ := q
    cases port with
    | none => exact .inr hdone
    | some p => exact .inr hdone
  | retryReturned =>
    obtain ⟨l, hl, rfl⟩ := map_eq_ok.mp hr
    exact .inl (Layer.retryReturned_sameDrain hl)
  | passTime tick =>
    cases hr
    exact .inl ⟨rfl, id⟩

structure Inv (s : DrainRun P) : Prop where
  layer : s.run.Inv
  drains : s.run.layer.draining = true → ¬ s.run.layer.Quiet

theorem Inv.not_quiet (h : Inv s) (hdraining : s.run.layer.draining = true)
    (hs : step clock s (.call a) = .ok t) : (t.run.layer.Quiet ∧ t.run.layer.draining = false) ∨
      (¬ t.run.layer.Quiet ∧ t.run.layer.draining = true) := by
  rcases call_draining hs with hsame | hquiet | hbusy
  · exact .inr ⟨fun hq => h.drains hdraining (hsame.busy hq), hsame.draining.trans hdraining⟩
  · exact .inl hquiet
  · exact .inr ⟨hbusy.1, hbusy.2.trans hdraining⟩

theorem call_running (hrunning : s.run.layer.draining = false)
    (hs : step clock s (.call a) = .ok t) : t.run.layer.draining = false := by
  rcases call_draining hs with hsame | hquiet | hbusy
  · exact hsame.draining.trans hrunning
  · exact hquiet.2
  · exact hbusy.2.trans hrunning

theorem call_signals (hs : step clock s (.call a) = .ok t) :
    t.signals = if s.run.layer.draining && !t.run.layer.draining then s.signals + 1
      else s.signals := by
  obtain ⟨r, _, rfl⟩ := map_eq_ok.mp hs
  rfl

theorem Inv.step {a : Action P} (h : Inv s) (ha : s.Enabled a) (hs : step clock s a = .ok t) :
    Inv t := by
  cases a with
  | call a =>
    refine ⟨?_, fun hdraining => ?_⟩
    · obtain ⟨r, hr, rfl⟩ := map_eq_ok.mp hs
      obtain ⟨u, hu, hinv⟩ := LayerRun.step_inv clock h.layer ha
      cases hr.symm.trans hu
      exact hinv
    · cases hbefore : s.run.layer.draining with
      | false => cases (call_running hbefore hs).symm.trans hdraining
      | true =>
        rcases h.not_quiet hbefore hs with hquiet | hbusy
        · cases hquiet.2.symm.trans hdraining
        · exact hbusy.1
  | dmDrain =>
    cases hs
    refine ⟨setDraining_inv h.layer _, fun hdraining hq => ?_⟩
    have hidle : s.run.layer.state = .idle := hq.1
    have hanswer : s.run.layer.drain = .draining := of_decide_eq_true hdraining
    unfold Layer.drain at hanswer
    rw [if_neg (not_not.mpr hidle)] at hanswer
    cases hanswer
  | dmDrainResume =>
    cases hs
    exact ⟨setDraining_inv h.layer _, fun hdraining => by cases hdraining⟩

theorem inv_of_reach (curTick : Nat)
    (h : Reach (step clock) Enabled (init curTick : DrainRun P) s) :
    Inv s :=
  h.invariant (P := Inv) ⟨LayerRun.init_inv false curTick, fun hd => by cases hd⟩
    fun hi ha hs => hi.step ha hs

theorem Inv.drain_iff (h : Inv s) :
    (s.run.layer.drain = .drained → s.run.layer.Quiet) ↔ ¬ s.run.layer.AwaitsPeer := by
  unfold Layer.drain
  constructor
  · rintro hright ⟨hidle, hpeer⟩
    rw [if_neg (not_not.mpr hidle)] at hright
    exact hpeer (hright rfl).2.2
  · intro hnot hdrained
    split at hdrained
    · cases hdrained
    · rename_i hidle
      have hidle := not_not.mp hidle
      have hpeer : s.run.layer.waitingForPeer = none := by
        by_contra hpeer
        exact hnot ⟨hidle, hpeer⟩
      refine ⟨hidle, ?_, hpeer⟩
      by_contra hwait
      rcases h.layer.awake hwait with hbusy | hne
      · exact hbusy hidle
      · exact hne hpeer

/-- In a state that can be reached the layer says wrongly that it is drained only while a packet
that the peer refused waits for the retry. A layer that said it drains calls `signalDrainDone`
in the call that leaves it idle with no port waiting, and in no other. -/
theorem drain_answers (clock : Clock) (curTick : Nat)
    (h : Reach (step clock) Enabled (init curTick : DrainRun P) s) :
    ((s.run.layer.drain = .drained → s.run.layer.Quiet) ↔ ¬ s.run.layer.AwaitsPeer) ∧
      (s.run.layer.draining = true → ¬ s.run.layer.Quiet ∧
        ∀ a t, step clock s (.call a) = .ok t →
          (t.signals = s.signals + 1 ∧ t.run.layer.Quiet) ∨
            (t.signals = s.signals ∧ ¬ t.run.layer.Quiet ∧ t.run.layer.draining = true)) ∧
      (s.run.layer.draining = false → ∀ a t, step clock s (.call a) = .ok t →
        t.signals = s.signals ∧ t.run.layer.draining = false) := by
  have hinv := inv_of_reach curTick h
  refine ⟨hinv.drain_iff, fun hdraining => ⟨hinv.drains hdraining, fun a t ht => ?_⟩,
    fun hrunning a t ht => ?_⟩
  · have hsignals := call_signals ht
    rcases hinv.not_quiet hdraining ht with ⟨hquiet, hdone⟩ | ⟨hbusy, hgoes⟩
    · rw [hdraining, hdone] at hsignals
      exact .inl ⟨hsignals, hquiet⟩
    · rw [hdraining, hgoes] at hsignals
      exact .inr ⟨hsignals, hbusy, hgoes⟩
  · have hsignals := call_signals ht
    rw [hrunning] at hsignals
    exact ⟨hsignals, call_running hrunning ht⟩

theorem drain_answers_busy : ∃ s t : DrainRun Bool,
    Reach (step ⟨id, 1, Nat.le_refl⟩) Enabled (init 0) s ∧
      step ⟨id, 1, Nat.le_refl⟩ s (.call .releaseLayer) = .ok t ∧
      s.run.layer.draining = true ∧ s.signals = 0 ∧ t.signals = 1 ∧ t.run.layer.Quiet := by
  obtain ⟨s, hrun, hend⟩ := Reach.exists_of_runFrom (step ⟨id, 1, Nat.le_refl⟩) Enabled
    (init 0 : DrainRun Bool)
    [.call (.tryTiming true), .call (.succeededTiming 10), .dmDrain, .call (.passTime 10)]
    (fun s => s.run.layer.draining && decide (s.signals = 0) &&
      okAnd (step ⟨id, 1, Nat.le_refl⟩ s (.call .releaseLayer)) fun t => decide (t.signals = 1))
    (by decide +kernel)
  rw [Bool.and_eq_true, Bool.and_eq_true, decide_eq_true_eq, okAnd_iff] at hend
  obtain ⟨⟨hdraining, hnone⟩, t, ht, hone⟩ := hend
  have hone := of_decide_eq_true hone
  refine ⟨s, t, hrun, ht, hdraining, hnone, hone, ?_⟩
  rcases ((drain_answers _ 0 hrun).2.1 hdraining).2 _ t ht with hdone | hgoes
  · exact hdone.2
  · omega

/-- The layer is released while the packet it forwarded still waits for the peer. -/
theorem drained_with_refused_packet : ∃ s : DrainRun Bool,
    Reach (step ⟨id, 1, Nat.le_refl⟩) Enabled (init 0) s ∧ s.run.layer.drain = .drained ∧
      ¬ s.run.layer.Quiet := by
  obtain ⟨s, hrun, hdrained, hpeer⟩ :
      ∃ s, Reach (step ⟨id, 1, Nat.le_refl⟩) Enabled (init 0 : DrainRun Bool) s ∧
      s.run.layer.drain = .drained ∧ s.run.layer.waitingForPeer = some true :=
    Reach.exists_of_run [.call (.tryTiming true), .call (.failedTiming true 10),
      .call (.passTime 10), .call .releaseLayer] (by decide +kernel)
  refine ⟨s, hrun, hdrained, fun hquiet => ?_⟩
  cases hpeer.symm.trans hquiet.2.2

end DrainRun

end Gem5.Mem
