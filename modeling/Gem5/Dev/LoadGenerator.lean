import Gem5.Shared.Reachability
import Gem5.Shared.Sim
import Mathlib.Algebra.Order.Ring.Nat

/-!
# The rate of the load generators

Both generators count the packets they send and receive, and after a fixed number of sent
packets adjust their rate to the loss. They differ in the loss they tolerate, in the length
of the window, and in that one of them ends the simulation at rate zero.
-/

namespace Gem5.Dev

open BitVec

inductive Mode
  | static
  | increment
  | burst

inductive ReplayMode
  | simpleReplay
  | replayAndAdjustThroughput
  | constThroughput

inductive GeneratorEvent
  | sendPacketEvent
  | checkLossEvent
  deriving DecidableEq

structure Generator where
  packetRate : BitVec 32
  lastTxCount : BitVec 64
  lastRxCount : BitVec 64
  scheduled : Option GeneratorEvent
  exiting : Bool

namespace Generator

def construct (packetRate : BitVec 32) : Generator where
  packetRate := packetRate
  lastTxCount := 0
  lastRxCount := 0
  scheduled := some .sendPacketEvent
  exiting := false

def frequency (g : Generator) : Option Nat :=
  if g.packetRate = 0 then none else some (10 ^ 12 / g.packetRate.toNat)

/-- The test of `checkLoss` for a window without loss. -/
def lossFree (tolerance : BitVec 64) (g : Generator) : Bool :=
  decide (g.lastTxCount - g.lastRxCount < tolerance)

/-- The new rate; the sums are of 64 bits and the rate has 32. -/
def adjustedRate (tolerance incrementInterval : BitVec 64) (g : Generator) : BitVec 32 :=
  if g.lossFree tolerance then (g.packetRate.setWidth 64 + incrementInterval).setWidth 32
  else if g.packetRate.setWidth 64 - incrementInterval < g.packetRate.setWidth 64 then
    (g.packetRate.setWidth 64 - incrementInterval).setWidth 32
  else g.packetRate

def adjust (tolerance incrementInterval : BitVec 64) (g : Generator) : Generator :=
  { g with
    packetRate := g.adjustedRate tolerance incrementInterval
    lastTxCount := 0
    lastRxCount := 0
    scheduled := some .sendPacketEvent }

def countSent (g : Generator) : Generator := { g with lastTxCount := g.lastTxCount + 1 }

def nextInWindow (checkLossInterval : BitVec 64) (g : Generator) : GeneratorEvent :=
  if g.lastTxCount = checkLossInterval then .checkLossEvent else .sendPacketEvent

def processRxPkt (g : Generator) : Generator := { g with lastRxCount := g.lastRxCount + 1 }

end Generator

namespace LoadGenerator

def checkLossInterval : BitVec 64 := 5000

def tolerance : BitVec 64 := 10

/-- The event after a packet that is sent before `stopTick`. -/
def nextEvent (mode : Mode) (g : Generator) : Option GeneratorEvent :=
  match mode with
  | .increment => some (g.nextInWindow checkLossInterval)
  | .static => some .sendPacketEvent
  | .burst => some .sendPacketEvent

def checkLoss (incrementInterval : BitVec 64) (g : Generator) : Generator :=
  g.adjust tolerance incrementInterval

end LoadGenerator

namespace LoadGeneratorPcap

def kCheckLossInterval : BitVec 64 := 100

def tolerance : BitVec 64 := 5

def nextEvent (mode : ReplayMode) (g : Generator) : Option GeneratorEvent :=
  match mode with
  | .constThroughput => some .sendPacketEvent
  | .replayAndAdjustThroughput => some (g.nextInWindow kCheckLossInterval)
  | .simpleReplay => none

def checkLoss (incrementInterval : BitVec 64) (g : Generator) : Generator :=
  let g' := g.adjust tolerance incrementInterval
  { g' with exiting := g.exiting || (!g.lossFree tolerance && g'.packetRate == 0) }

end LoadGeneratorPcap

inductive GeneratorKind
  | loadGenerator (mode : Mode)
  | loadGeneratorPcap (replayMode : ReplayMode)

namespace GeneratorKind

def tolerance : GeneratorKind → BitVec 64
  | loadGenerator _ => LoadGenerator.tolerance
  | loadGeneratorPcap _ => LoadGeneratorPcap.tolerance

def nextEvent : GeneratorKind → Generator → Option GeneratorEvent
  | loadGenerator mode => LoadGenerator.nextEvent mode
  | loadGeneratorPcap mode => LoadGeneratorPcap.nextEvent mode

def sendPacket (kind : GeneratorKind) (stopped : Bool) (g : Generator) : Generator :=
  { g.countSent with scheduled := if stopped then none else kind.nextEvent g.countSent }

def checkLoss : GeneratorKind → BitVec 64 → Generator → Generator
  | loadGenerator _ => LoadGenerator.checkLoss
  | loadGeneratorPcap _ => LoadGeneratorPcap.checkLoss

end GeneratorKind

inductive GeneratorAction
  | sendPacket (stopped : Bool)
  | processRxPkt
  | checkLoss

namespace Generator

def Occurs (g : Generator) : GeneratorAction → Prop
  | .sendPacket _ => g.scheduled = some .sendPacketEvent
  | .processRxPkt => True
  | .checkLoss => g.scheduled = some .checkLossEvent

instance (g : Generator) : DecidablePred g.Occurs
  | .sendPacket _ => inferInstanceAs (Decidable (_ = _))
  | .processRxPkt => inferInstanceAs (Decidable True)
  | .checkLoss => inferInstanceAs (Decidable (_ = _))

def step (kind : GeneratorKind) (incrementInterval : BitVec 64) (g : Generator) :
    GeneratorAction → Sim Generator
  | .sendPacket stopped => .ok (kind.sendPacket stopped g)
  | .processRxPkt => .ok g.processRxPkt
  | .checkLoss => .ok (kind.checkLoss incrementInterval g)

structure RateRight (kind : GeneratorKind) (g : Generator) (a : GeneratorAction) (t : Generator) :
    Prop where
  positive : 1 ≤ t.packetRate.toNat
  enough : a = .checkLoss → g.lastTxCount.toNat ≤ g.lastRxCount.toNat →
    g.lossFree kind.tolerance = true
  grows : g.packetRate.toNat < t.packetRate.toNat → a = .checkLoss ∧
    g.lossFree kind.tolerance = true
  shrinks : t.packetRate.toNat < g.packetRate.toNat →
    a = .checkLoss ∧ g.lossFree kind.tolerance = false

/-- No more packets are received than sent (up to counters about to wrap), a higher rate fits
into its 32 bits, and a lower one does not meet zero. -/
def Manageable (kind : GeneratorKind) (incrementInterval : BitVec 64) (g : Generator) :
    GeneratorAction → Prop
  | .sendPacket _ => True
  | .processRxPkt => True
  | .checkLoss =>
    (g.lastTxCount.toNat < g.lastRxCount.toNat →
      2 ^ 64 < g.lastRxCount.toNat - g.lastTxCount.toNat + kind.tolerance.toNat) ∧
    (g.lossFree kind.tolerance = true →
      g.packetRate.toNat + incrementInterval.toNat % 2 ^ 32 < 2 ^ 32) ∧
    (g.lossFree kind.tolerance = false → g.packetRate.toNat ≠ incrementInterval.toNat)

instance (kind : GeneratorKind) (incrementInterval : BitVec 64) (g : Generator) :
    DecidablePred (g.Manageable kind incrementInterval)
  | .sendPacket _ => inferInstanceAs (Decidable True)
  | .processRxPkt => inferInstanceAs (Decidable True)
  | .checkLoss => inferInstanceAs (Decidable (_ ∧ _ ∧ _))

variable {kind : GeneratorKind} {inc tolerance : BitVec 64} {g t : Generator} {a : GeneratorAction}

theorem frequency_isSome_iff : g.frequency.isSome = true ↔ 1 ≤ g.packetRate.toNat := by
  unfold frequency
  split
  · rename_i hzero
    rw [hzero]
    decide
  · exact iff_of_true rfl (by bv_omega)

theorem packetRate_checkLoss :
    (kind.checkLoss inc g).packetRate = g.adjustedRate kind.tolerance inc := by
  cases kind <;> rfl

theorem one_le_tolerance : 1 ≤ kind.tolerance.toNat := by
  cases kind with
  | loadGenerator mode | loadGeneratorPcap mode => exact Nat.le_of_ble_eq_true rfl

theorem lossFree_iff_of_le (htol : 1 ≤ tolerance.toNat)
    (h : g.lastTxCount.toNat ≤ g.lastRxCount.toNat) : g.lossFree tolerance = true ↔
      (g.lastTxCount.toNat < g.lastRxCount.toNat →
        2 ^ 64 < g.lastRxCount.toNat - g.lastTxCount.toNat + tolerance.toNat) := by
  rw [lossFree, decide_eq_true_iff, lt_def, toNat_sub]
  omega

theorem adjustedRate_lossFree (inc : BitVec 64) (h : g.lossFree tolerance = true) :
    (g.adjustedRate tolerance inc).toNat = (g.packetRate.toNat + inc.toNat % 2 ^ 32) % 2 ^ 32 := by
  rw [adjustedRate, if_pos h]
  simp only [toNat_setWidth, toNat_add]
  omega

theorem adjustedRate_lossy (inc : BitVec 64) (h : g.lossFree tolerance = false) :
    (g.adjustedRate tolerance inc).toNat =
      if inc.toNat ≤ g.packetRate.toNat then g.packetRate.toNat - inc.toNat
      else g.packetRate.toNat := by
  rw [adjustedRate, h, if_neg Bool.false_ne_true]
  split
  · rename_i hlt
    rw [lt_def, toNat_sub, toNat_setWidth] at hlt
    rw [toNat_setWidth, toNat_sub, toNat_setWidth]
    split <;> omega
  · rename_i hlt
    rw [lt_def, toNat_sub, toNat_setWidth] at hlt
    split <;> omega

theorem rateRight_checkLoss_iff (hrate : 1 ≤ g.packetRate.toNat) :
    RateRight kind g .checkLoss (kind.checkLoss inc g) ↔ g.Manageable kind inc .checkLoss := by
  have hall : (g.lastTxCount.toNat ≤ g.lastRxCount.toNat → g.lossFree kind.tolerance = true) ↔
      (g.lastTxCount.toNat < g.lastRxCount.toNat →
        2 ^ 64 < g.lastRxCount.toNat - g.lastTxCount.toNat + kind.tolerance.toNat) := by
    constructor
    · intro h hless
      exact (lossFree_iff_of_le one_le_tolerance hless.le).mp (h hless.le) hless
    · intro h hle
      exact (lossFree_iff_of_le one_le_tolerance hle).mpr h
  cases hfree : g.lossFree kind.tolerance with
  | true =>
    have hnew := adjustedRate_lossFree inc hfree
    rw [← packetRate_checkLoss] at hnew
    constructor
    · rintro ⟨_, henough, _, hshrinks⟩
      have hkept : ¬(kind.checkLoss inc g).packetRate.toNat < g.packetRate.toNat := by
        intro hless
        exact Bool.noConfusion (hfree.symm.trans (hshrinks hless).2)
      refine ⟨hall.mp (henough rfl), fun _ => by omega, fun h => ?_⟩
      exact Bool.noConfusion (hfree.symm.trans h)
    · rintro ⟨hcounts, hfits, _⟩
      have hfits := hfits hfree
      exact ⟨by omega, fun _ => hall.mpr hcounts, fun _ => ⟨rfl, hfree⟩, fun hless => by omega⟩
  | false =>
    have hnew := adjustedRate_lossy inc hfree
    rw [← packetRate_checkLoss] at hnew
    constructor
    · rintro ⟨hpos, henough, _, _⟩
      refine ⟨hall.mp (henough rfl), fun h => ?_, fun _ heq => ?_⟩
      · exact Bool.noConfusion (hfree.symm.trans h)
      · rw [if_pos heq.ge] at hnew
        omega
    · rintro ⟨hcounts, _, hne⟩
      have hne := hne hfree
      refine ⟨?_, fun _ => hall.mpr hcounts, fun hless => ?_, fun _ => ⟨rfl, hfree⟩⟩ <;>
        split at hnew <;> omega

theorem rateRight_of_same (hrate : 1 ≤ g.packetRate.toNat) (ha : a ≠ .checkLoss)
    (h : t.packetRate = g.packetRate) : RateRight kind g a t where
  positive := h ▸ hrate
  enough := fun heq => absurd heq ha
  grows := fun hless => absurd (h ▸ hless) (lt_irrefl _)
  shrinks := fun hless => absurd (h ▸ hless) (lt_irrefl _)

theorem rateRight_iff (hrate : 1 ≤ g.packetRate.toNat) (hs : step kind inc g a = .ok t) :
    RateRight kind g a t ↔ g.Manageable kind inc a := by
  cases a with
  | sendPacket stopped | processRxPkt =>
    cases hs
    exact iff_of_true (rateRight_of_same hrate nofun rfl) trivial
  | checkLoss =>
    cases hs
    exact rateRight_checkLoss_iff hrate

/-- In every run whose windows are manageable the rate stays positive, and the next action
treats it as it should exactly when it is manageable too. -/
theorem rate_control (kind : GeneratorKind) (inc : BitVec 64) (rate : BitVec 32)
    (hpos : 1 ≤ rate.toNat)
    (hr : Reach (step kind inc) (fun g a => g.Occurs a ∧ g.Manageable kind inc a)
      (construct rate) g) :
    1 ≤ g.packetRate.toNat ∧ g.frequency.isSome = true ∧
      ∀ a t, step kind inc g a = .ok t → (RateRight kind g a t ↔ g.Manageable kind inc a) := by
  have hrate : 1 ≤ g.packetRate.toNat := by
    apply hr.invariant (P := fun g => 1 ≤ g.packetRate.toNat) hpos
    intro u v a hu ha hs
    exact ((rateRight_iff hu hs).mpr ha.2).positive
  exact ⟨hrate, frequency_isSome_iff.mpr hrate, fun a t hs => rateRight_iff hrate hs⟩

theorem rate_control_raised : ∃ g, g.packetRate = 11 ∧ 1 ≤ g.packetRate.toNat ∧
    g.frequency.isSome = true ∧ ∀ a t, step (.loadGeneratorPcap .replayAndAdjustThroughput) 1 g a =
      .ok t → (RateRight (.loadGeneratorPcap .replayAndAdjustThroughput) g a t ↔
        g.Manageable (.loadGeneratorPcap .replayAndAdjustThroughput) 1 a) := by
  obtain ⟨g, hg, hp⟩ := Reach.exists_of_runFrom
    (step (.loadGeneratorPcap .replayAndAdjustThroughput) 1)
    (fun g a => g.Occurs a ∧ g.Manageable (.loadGeneratorPcap .replayAndAdjustThroughput) 1 a)
    (construct 10)
    (List.replicate 100 (.sendPacket false) ++ List.replicate 100 .processRxPkt ++ [.checkLoss])
    (fun g => g.packetRate = 11) (by decide +kernel)
  exact ⟨g, hp, rate_control _ 1 10 (by decide) hg⟩

/-- With the default rate and interval of one, a window without answers sets the rate to zero.
Answers of the window before make a window without loss count as lossy. A rate at its limit
shrinks after a window without loss. -/
theorem rate_out_of_control :
    (∃ g, Reach (step (.loadGeneratorPcap .replayAndAdjustThroughput) 1) Occurs (construct 1) g ∧
      g.packetRate = 0 ∧ g.frequency = none) ∧
    (∃ g, Reach (step (.loadGeneratorPcap .replayAndAdjustThroughput) 1) Occurs (construct 10) g ∧
      g.Occurs .checkLoss ∧ g.lastTxCount = 100 ∧ g.lastRxCount = 110 ∧
      g.lossFree LoadGeneratorPcap.tolerance = false) ∧
    (∃ g, Reach (step (.loadGeneratorPcap .replayAndAdjustThroughput) 1) Occurs
      (construct 0xffffffff) g ∧ g.Occurs .checkLoss ∧
      g.lossFree LoadGeneratorPcap.tolerance = true ∧
      (LoadGeneratorPcap.checkLoss 1 g).packetRate = 0) := by
  refine ⟨?_, ?_, ?_⟩
  · exact Reach.exists_of_run (List.replicate 100 (.sendPacket false) ++ [.checkLoss])
      (by decide +kernel)
  · exact Reach.exists_of_run (List.replicate 100 (.sendPacket false) ++
      List.replicate 90 .processRxPkt ++ [.checkLoss] ++ List.replicate 100 (.sendPacket false) ++
      List.replicate 110 .processRxPkt) (by decide +kernel)
  · exact Reach.exists_of_run (List.replicate 100 (.sendPacket false) ++
      List.replicate 100 .processRxPkt) (by decide +kernel)

end Generator

end Gem5.Dev
