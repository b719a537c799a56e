import Gem5.Shared.Sim
import Gem5.Shared.Reachability

/-!
# Interrupts of the device

Causes are collected in `ICR` and masked by `IMR`. An interrupt goes to the processor at
once, or waits for `interEvent` when it comes too soon after the last one. The line to
the processor and the bit `INT_ASSERT` are set and cleared together.
-/

namespace Gem5.IGbE

open BitVec Bool

inductive IntTypes where
  | txdw | txqe | lsc | rxseq | rxdmt | rxo | rxt | madc | rxcfg | gpi0 | gpi1 | txdlow | srpd | ack

def IntTypes.bits : IntTypes → BitVec 32
  | .txdw => 0x00001#32
  | .txqe => 0x00002#32
  | .lsc => 0x00004#32
  | .rxseq => 0x00008#32
  | .rxdmt => 0x00010#32
  | .rxo => 0x00040#32
  | .rxt => 0x00080#32
  | .madc => 0x00200#32
  | .rxcfg => 0x00400#32
  | .gpi0 => 0x02000#32
  | .gpi1 => 0x04000#32
  | .txdlow => 0x08000#32
  | .srpd => 0x10000#32
  | .ack => 0x20000#32

inductive CommunicationType where
  | ring
  | m2func
  deriving DecidableEq

def intAssertBit : BitVec 32 := 0x80000000#32

/-- `rxTimers` are `_radvEvent` and `_rdtrEvent` of receive queue 0, `txTimers` are
`_tadvEvent` and `_tidvEvent` of each transmit queue: whether they are scheduled. -/
structure InterruptState where
  icr : BitVec 32
  imr : BitVec 32
  iam : BitVec 32
  itr : BitVec 32
  ctrlExt : BitVec 32
  lastInterrupt : Nat
  curTick : Nat
  interEvent : Option Nat
  line : Bool
  interruptDisable : Bool
  commType : CommunicationType
  rxTimers : Bool × Bool
  txTimers : List (Bool × Bool)

namespace InterruptState

def construct (commType : CommunicationType) (numQueues : Nat) : InterruptState where
  icr := 0
  imr := 0
  iam := 0
  itr := 0
  ctrlExt := 0
  lastInterrupt := 0
  curTick := 0
  interEvent := none
  line := false
  interruptDisable := false
  commType := commType
  rxTimers := (false, false)
  txTimers := List.replicate numQueues (false, false)

def intAssert (s : InterruptState) : Bool := s.icr.getLsbD 31

def interval (s : InterruptState) : Nat := (s.itr &&& 0xffff#32).toNat

def iame (s : InterruptState) : Bool := s.ctrlExt.getLsbD 27

def schedule (when : Nat) (s : InterruptState) : Sim InterruptState := do
  simAssert s.interEvent.isNone
  simAssert (decide (s.curTick ≤ when))
  pure { s with interEvent := some when }

def delayedCauses (s : InterruptState) : BitVec 32 :=
  (if s.rxTimers.1 || s.rxTimers.2 then IntTypes.rxt.bits else 0) |||
    (if s.txTimers.any fun q => q.1 || q.2 then IntTypes.txdw.bits else 0)

def takeTimers (s : InterruptState) : InterruptState :=
  match s.commType with
  | .ring => { s with
      icr := s.icr ||| s.delayedCauses
      rxTimers := (false, false)
      txTimers := s.txTimers.map fun _ => (false, false) }
  | .m2func => s

def cpuPostInt (s : InterruptState) : InterruptState :=
  if s.interruptDisable then s
  else if s.icr &&& s.imr = 0 then s
  else
    let s := { s with interEvent := none }.takeTimers
    { s with icr := s.icr ||| intAssertBit, line := true, lastInterrupt := s.curTick }

def cpuClearInt (s : InterruptState) : InterruptState :=
  if s.intAssert then { s with icr := s.icr &&& ~~~intAssertBit, line := false } else s

/-- The first half of `chkInterrupt`: the mask has cleaned all interrupts. -/
def clearMasked (s : InterruptState) : InterruptState :=
  if s.icr &&& s.imr = 0 then { s with interEvent := none }.cpuClearInt else s

/-- `ns` is the number of ticks in a nanosecond. -/
def itrInterval (ns : Nat) (s : InterruptState) : Nat := ns * 256 * s.interval

def chkInterrupt (ns : Nat) (s : InterruptState) : Sim InterruptState :=
  let s := s.clearMasked
  if s.icr &&& s.imr = 0 then pure s
  else if s.interval = 0 then pure s.cpuPostInt
  else if s.interEvent.isNone then s.schedule (s.curTick + s.itrInterval ns)
  else pure s

def delayInterrupt (ns : Nat) (s : InterruptState) : Sim InterruptState := do
  let intTime := s.lastInterrupt + s.itrInterval ns
  simAssert (decide (0 < intTime))
  if s.interEvent.isNone then s.schedule intTime else pure s

/-- The second half of `postInterrupt`. -/
def sendOrDelay (ns : Nat) (now : Bool) (s : InterruptState) : Sim InterruptState :=
  if s.interval = 0 ∨ now = true ∨ s.lastInterrupt + s.itrInterval ns ≤ s.curTick then
    pure { s with interEvent := none }.cpuPostInt
  else s.delayInterrupt ns

def postInterrupt (ns : Nat) (t : BitVec 32) (now : Bool) (s : InterruptState) :
    Sim InterruptState := do
  simAssert (decide (t ≠ 0))
  if t &&& s.icr ≠ 0 ∧ now = false then pure s
  else sendOrDelay ns now { s with icr := s.icr ||| t }

/-- A read of `ICR` clears it, all but its two highest bits. -/
def clearOnRead (s : InterruptState) : InterruptState :=
  { s with icr := if s.intAssert ∨ s.imr = 0 then s.icr &&& ~~~0x3fffffff#32 else s.icr }

def autoMask (s : InterruptState) : InterruptState := { s with imr := s.imr &&& ~~~s.iam }

def readICR (ns : Nat) (s : InterruptState) : Sim (BitVec 32 × InterruptState) := do
  let cleared := s.clearOnRead
  let t ← chkInterrupt ns (if cleared.iame ∧ cleared.intAssert then cleared.autoMask else cleared)
  pure (s.icr, t)

def writeICR (ns : Nat) (val : BitVec 32) (s : InterruptState) : Sim InterruptState :=
  let s := if s.iame then s.autoMask else s
  { s with icr := ~~~(val &&& 0x7fffffff#32) &&& s.icr }.chkInterrupt ns

end InterruptState

/-- What can happen: `wait` passes time, not beyond `interEvent`; `delayTimers` is the
descriptor caches at work; `writeCommand` writes the PCI command register. -/
inductive InterruptOp where
  | postInterrupt (t : IntTypes) (now : Bool)
  | readICR
  | writeICR (val : BitVec 32)
  | writeITR (val : BitVec 32)
  | writeICS (val : BitVec 32)
  | writeIMS (val : BitVec 32)
  | writeIMC (val : BitVec 32)
  | writeIAM (val : BitVec 32)
  | writeCtrlExt (val : BitVec 32)
  | interEvent
  | wait (ticks : Nat)
  | delayTimers (rx : Bool × Bool) (tx : List (Bool × Bool))
  | writeCommand (interruptDisable : Bool)

def InterruptOp.causes : InterruptOp → Option (BitVec 32)
  | .postInterrupt t _ => some t.bits
  | .writeICS val => some val
  | _ => none

/-- An access to the mask or to `ICR`. -/
def InterruptOp.accessesMask : InterruptOp → Bool
  | .readICR | .writeICR _ | .writeIMS _ | .writeIMC _ => true
  | _ => false

namespace InterruptState

def step (ns : Nat) (s : InterruptState) : InterruptOp → Sim InterruptState
  | .postInterrupt t now => s.postInterrupt ns t.bits now
  | .readICR => do
    let (_, t) ← s.readICR ns
    pure t
  | .writeICR val => s.writeICR ns val
  | .writeITR val => pure { s with itr := val }
  | .writeICS val => s.postInterrupt ns val false
  | .writeIMS val => { s with imr := s.imr ||| val }.chkInterrupt ns
  | .writeIMC val => { s with imr := s.imr &&& ~~~val }.chkInterrupt ns
  | .writeIAM val => pure { s with iam := val }
  | .writeCtrlExt val => pure { s with ctrlExt := val }
  | .interEvent =>
    match s.interEvent with
    | none => pure s
    | some when => pure { s with interEvent := none, curTick := when }.cpuPostInt
  | .wait ticks =>
    match s.interEvent with
    | none => pure { s with curTick := s.curTick + ticks }
    | some when => pure { s with curTick := min (s.curTick + ticks) when }
  | .delayTimers rx tx => pure { s with rxTimers := rx, txTimers := tx }
  | .writeCommand interruptDisable => pure { s with interruptDisable := interruptDisable }

structure Delivered (op : InterruptOp) (t : InterruptState) : Prop where
  posted : ∀ v, op.causes = some v → v &&& t.icr = v
  pending : t.icr &&& t.imr &&& 0x7fffffff#32 ≠ 0 →
    t.intAssert = true ∨ t.interEvent.isSome = true
  cleared : op.accessesMask = true → t.icr &&& t.imr = 0 → t.line = false
  line : t.line = t.intAssert

/-- A value written to `ICS` is not zero. It is pending already, or it is new altogether
and is without `INT_ASSERT`. The PCI command register keeps interrupts enabled. -/
def Separate (s : InterruptState) : InterruptOp → Prop
  | .writeICS val => val ≠ 0 ∧ (val &&& s.icr = val ∨
      (val &&& s.icr = 0 ∧ val.getLsbD 31 = false))
  | .writeCommand interruptDisable => interruptDisable = false
  | _ => True

section Bits

variable {a b c : BitVec 32}

theorem intAssertBit_or : (a ||| intAssertBit).getLsbD 31 = true := by
  simp [intAssertBit]

theorem intAssertBit_clear : (a &&& ~~~intAssertBit).getLsbD 31 = false := by
  simp [intAssertBit]

theorem and_clear (h : a &&& b = 0) : a &&& ~~~intAssertBit &&& b = 0 := by
  rw [BitVec.and_assoc, BitVec.and_comm _ b, ← BitVec.and_assoc, h]
  simp

theorem and_or_self (h : a &&& b = a) : a &&& (b ||| c) = a := by
  rw [BitVec.and_or_distrib_left, h]
  ext i hi
  simpa using fun ha _ => ha

theorem and_or_right : a &&& (b ||| a) = a := by
  rw [BitVec.or_comm]
  exact and_or_self BitVec.and_self

theorem and_eq_zero_of_or (h : (a ||| c) &&& b = 0) : a &&& b = 0 :=
  calc a &&& b = a &&& (a ||| c) &&& b := by rw [and_or_self BitVec.and_self]
    _ = a &&& 0 := by rw [BitVec.and_assoc, h]
    _ = 0 := BitVec.and_zero

theorem IntTypes.bits_ne_zero (t : IntTypes) : t.bits ≠ 0 := by
  cases t <;> decide

theorem IntTypes.bits_intAssert (t : IntTypes) : t.bits.getLsbD 31 = false := by
  cases t <;> decide

theorem IntTypes.bits_and (t : IntTypes) (icr : BitVec 32) :
    t.bits &&& icr = t.bits ∨ t.bits &&& icr = 0 := by
  obtain ⟨n, hn⟩ : ∃ n, t.bits = BitVec.twoPow 32 n := by
    cases t
    case txdw => exact ⟨0, by decide⟩
    case txqe => exact ⟨1, by decide⟩
    case lsc => exact ⟨2, by decide⟩
    case rxseq => exact ⟨3, by decide⟩
    case rxdmt => exact ⟨4, by decide⟩
    case rxo => exact ⟨6, by decide⟩
    case rxt => exact ⟨7, by decide⟩
    case madc => exact ⟨9, by decide⟩
    case rxcfg => exact ⟨10, by decide⟩
    case gpi0 => exact ⟨13, by decide⟩
    case gpi1 => exact ⟨14, by decide⟩
    case txdlow => exact ⟨15, by decide⟩
    case srpd => exact ⟨16, by decide⟩
    case ack => exact ⟨17, by decide⟩
  rw [hn, twoPow_and]
  split
  · exact .inl rfl
  · exact .inr rfl

theorem readICR_keeps : (a &&& ~~~0x3fffffff#32).getLsbD 31 = a.getLsbD 31 := by
  simp

theorem writeICR_keeps : (~~~(b &&& 0x7fffffff#32) &&& a).getLsbD 31 = a.getLsbD 31 := by
  simp

end Bits

section Invariant

variable {s t : InterruptState}

structure Sound (s : InterruptState) : Prop where
  enabled : s.interruptDisable = false
  pending : s.icr &&& s.imr ≠ 0 → s.intAssert = true ∨ s.interEvent.isSome = true
  line : s.line = s.intAssert

theorem construct_sound (commType : CommunicationType) (numQueues : Nat) :
    (construct commType numQueues).Sound where
  enabled := rfl
  pending := fun h => absurd BitVec.and_self h
  line := getLsbD_zero.symm

theorem takeTimers_frame : ∃ causes, s.takeTimers.icr = s.icr ||| causes ∧
    s.takeTimers.imr = s.imr ∧ s.takeTimers.interruptDisable = s.interruptDisable := by
  unfold takeTimers
  split
  · exact ⟨s.delayedCauses, rfl, rfl, rfl⟩
  · exact ⟨0, (or_zero).symm, rfl, rfl⟩

theorem cpuPostInt_cases (hs : s.interruptDisable = false) :
    (s.icr &&& s.imr = 0 ∧ s.cpuPostInt = s) ∨
      (s.icr &&& s.imr ≠ 0 ∧ s.cpuPostInt.Sound ∧ s.cpuPostInt.imr = s.imr ∧
        ∃ causes, s.cpuPostInt.icr = s.icr ||| causes) := by
  unfold cpuPostInt
  rw [if_neg (eq_false_iff.mp hs)]
  split
  · rename_i hmasked
    exact .inl ⟨hmasked, rfl⟩
  · rename_i hcause
    obtain ⟨causes, hicr, himr, hdisable⟩ := takeTimers_frame (s := { s with interEvent := none })
    refine .inr ⟨hcause, ⟨hdisable.trans hs, fun _ => .inl intAssertBit_or, intAssertBit_or.symm⟩,
      himr, causes ||| intAssertBit, ?_⟩
    rw [← BitVec.or_assoc]
    exact congrArg (· ||| intAssertBit) hicr

theorem isSome_of_not_isNone {when : Option Nat} (h : ¬ when.isNone = true) : when.isSome = true :=
  Option.isSome_iff_ne_none.mpr fun hnone => h (Option.isNone_iff_eq_none.mpr hnone)

theorem schedule_ok {when : Nat} (hnone : s.interEvent.isNone = true) (hle : s.curTick ≤ when) :
    s.schedule when = .ok { s with interEvent := some when } := by
  unfold schedule
  rw [simAssert_of hnone, simAssert_of (decide_eq_true hle)]
  rfl

theorem chkInterrupt_sound (ns : Nat) (hs : s.interruptDisable = false)
    (hline : s.line = s.intAssert) :
    ∃ t, s.chkInterrupt ns = .ok t ∧ t.Sound ∧ (t.icr &&& t.imr = 0 → t.line = false) := by
  unfold chkInterrupt clearMasked
  by_cases hmasked : s.icr &&& s.imr = 0
  · -- nothing is left: the line goes down if it was up
    rw [if_pos hmasked]
    have hclear : ({ s with interEvent := none }.cpuClearInt).icr &&&
          ({ s with interEvent := none }.cpuClearInt).imr = 0 ∧
        ({ s with interEvent := none }.cpuClearInt).interruptDisable = false ∧
        ({ s with interEvent := none }.cpuClearInt).line = false ∧
        ({ s with interEvent := none }.cpuClearInt).intAssert = false := by
      unfold cpuClearInt
      split
      · exact ⟨and_clear hmasked, hs, rfl, intAssertBit_clear⟩
      · rename_i hassert
        have hoff : s.intAssert = false := eq_false_iff.mpr hassert
        exact ⟨hmasked, hs, hline.trans hoff, hoff⟩
    obtain ⟨hzero, henabled, hdown, hoff⟩ := hclear
    refine ⟨_, if_pos hzero, ⟨henabled, fun h => absurd hzero h, hdown.trans hoff.symm⟩, ?_⟩
    exact fun _ => hdown
  · rw [if_neg hmasked]
    rw [if_neg hmasked]
    split
    · obtain ⟨hzero, _⟩ | ⟨_, hsound, himr, causes, hicr⟩ := cpuPostInt_cases hs
      · exact absurd hzero hmasked
      · refine ⟨_, rfl, hsound, fun hzero => ?_⟩
        rw [hicr, himr] at hzero
        exact absurd (and_eq_zero_of_or hzero) hmasked
    · split
      · rename_i hnone
        exact ⟨_, schedule_ok hnone (Nat.le_add_right _ _), ⟨hs, fun _ => .inr rfl, hline⟩,
          fun hzero => absurd hzero hmasked⟩
      · rename_i hsome
        exact ⟨s, rfl, ⟨hs, fun _ => .inr (isSome_of_not_isNone hsome), hline⟩,
          fun hzero => absurd hzero hmasked⟩

theorem sendOrDelay_sound (ns : Nat) (now : Bool) (hs : s.interruptDisable = false)
    (hline : s.line = s.intAssert) :
    ∃ t, s.sendOrDelay ns now = .ok t ∧ t.Sound ∧ ∃ causes, t.icr = s.icr ||| causes := by
  unfold sendOrDelay
  split
  · obtain ⟨hzero, hsame⟩ | ⟨_, hsound, _, hicr⟩ :=
      cpuPostInt_cases (s := { s with interEvent := none }) hs
    · refine ⟨_, rfl, ?_⟩
      rw [hsame]
      exact ⟨⟨hs, fun h => absurd hzero h, hline⟩, 0, or_zero.symm⟩
    · exact ⟨_, rfl, hsound, hicr⟩
  · rename_i hlate
    have hfuture : s.curTick < s.lastInterrupt + s.itrInterval ns := by
      by_contra hle
      exact hlate (.inr (.inr (Nat.le_of_not_lt hle)))
    unfold delayInterrupt
    dsimp only
    rw [simAssert_of (decide_eq_true (Nat.zero_lt_of_lt hfuture))]
    split
    · rename_i hnone
      exact ⟨_, schedule_ok hnone (Nat.le_of_lt hfuture), ⟨hs, fun _ => .inr rfl, hline⟩, 0,
        or_zero.symm⟩
    · rename_i hsome
      exact ⟨s, rfl, ⟨hs, fun _ => .inr (isSome_of_not_isNone hsome), hline⟩, 0,
        or_zero.symm⟩

theorem postInterrupt_sound (ns : Nat) (now : Bool) {v : BitVec 32} (hs : s.Sound) (hv : v ≠ 0)
    (hnew : v &&& s.icr = v ∨ v &&& s.icr = 0) (hbit : v &&& s.icr = v ∨ v.getLsbD 31 = false) :
    ∃ t, s.postInterrupt ns v now = .ok t ∧ t.Sound ∧ v &&& t.icr = v := by
  unfold postInterrupt
  rw [simAssert_of (decide_eq_true hv)]
  split
  · rename_i hpending
    rcases hnew with hall | hzero
    · exact ⟨s, rfl, hs, hall⟩
    · exact absurd hzero hpending.1
  · have hassert : s.intAssert = { s with icr := s.icr ||| v }.intAssert := by
      change s.icr.getLsbD 31 = (s.icr ||| v).getLsbD 31
      rw [getLsbD_or]
      rcases hbit with hall | hbit
      · have hbits := congrArg (fun x : BitVec 32 => x.getLsbD 31) hall
        simp only [getLsbD_and] at hbits
        rw [← hbits]
        cases s.icr.getLsbD 31 <;> simp
      · rw [hbit, Bool.or_false]
    obtain ⟨t, ht, hsound, causes, hicr⟩ := sendOrDelay_sound ns now
      (s := { s with icr := s.icr ||| v }) hs.enabled (hs.line.trans hassert)
    refine ⟨t, ht, hsound, ?_⟩
    rw [hicr]
    exact and_or_self and_or_right

theorem Sound.delivered {op : InterruptOp} (h : t.Sound)
    (hposted : ∀ v, op.causes = some v → v &&& t.icr = v)
    (hcleared : op.accessesMask = true → t.icr &&& t.imr = 0 → t.line = false) :
    Delivered op t := by
  refine ⟨hposted, fun hcause => h.pending fun hzero => hcause ?_, hcleared, h.line⟩
  rw [hzero]
  exact zero_and

theorem chkInterrupt_delivered (ns : Nat) {op : InterruptOp} (hs : s.interruptDisable = false)
    (hline : s.line = s.intAssert) (hop : op.causes = none) :
    ∃ t, s.chkInterrupt ns = .ok t ∧ t.Sound ∧ Delivered op t := by
  obtain ⟨t, ht, hsound, hdown⟩ := chkInterrupt_sound ns hs hline
  refine ⟨t, ht, hsound, hsound.delivered (fun v hv => ?_) fun _ => hdown⟩
  rw [hop] at hv
  cases hv

theorem Sound.keep {op : InterruptOp} (h : s.Sound) (hicr : t.icr = s.icr) (himr : t.imr = s.imr)
    (hevent : t.interEvent = s.interEvent) (hline : t.line = s.line)
    (henabled : t.interruptDisable = false) (hop : op.causes = none)
    (hmask : op.accessesMask = false) : t.Sound ∧ Delivered op t := by
  have hassert : t.intAssert = s.intAssert := congrArg (fun x : BitVec 32 => x.getLsbD 31) hicr
  have hsound : t.Sound := by
    refine ⟨henabled, ?_, ?_⟩
    · rw [hicr, himr, hevent, hassert]
      exact h.pending
    · rw [hline, hassert]
      exact h.line
  refine ⟨hsound, hsound.delivered (fun v hv => ?_) fun hm => ?_⟩
  · rw [hop] at hv
    cases hv
  · rw [hmask] at hm
    cases hm

theorem step_delivered (ns : Nat) {op : InterruptOp} (h : s.Sound) (hop : s.Separate op) :
    ∃ t, s.step ns op = .ok t ∧ t.Sound ∧ Delivered op t := by
  cases op with
  | postInterrupt c now =>
    obtain ⟨t, ht, hsound, hposted⟩ := postInterrupt_sound ns now h (IntTypes.bits_ne_zero c)
      (IntTypes.bits_and c s.icr) (.inr (IntTypes.bits_intAssert c))
    refine ⟨t, ht, hsound, hsound.delivered (fun v hv => ?_) fun hm => ?_⟩
    · obtain rfl := Option.some.inj hv
      exact hposted
    · cases hm
  | readICR =>
    have hassert : s.clearOnRead.intAssert = s.intAssert := by
      unfold clearOnRead
      split
      · exact readICR_keeps
      · rfl
    have hcheck : ∃ t, chkInterrupt ns (if s.clearOnRead.iame ∧ s.clearOnRead.intAssert then
        s.clearOnRead.autoMask else s.clearOnRead) = .ok t ∧ t.Sound ∧ Delivered .readICR t := by
      split <;> exact chkInterrupt_delivered ns h.enabled (h.line.trans hassert.symm) rfl
    obtain ⟨t, ht, hdelivered⟩ := hcheck
    refine ⟨t, ?_, hdelivered⟩
    simp only [step, readICR, ht, sim_ok_bind, sim_pure]
  | writeICR val =>
    simp only [step, writeICR]
    split <;> exact chkInterrupt_delivered ns h.enabled (h.line.trans writeICR_keeps.symm) rfl
  | writeITR val => exact ⟨_, rfl, h.keep rfl rfl rfl rfl h.enabled rfl rfl⟩
  | writeICS val =>
    obtain ⟨hv, hcase⟩ := hop
    obtain ⟨t, ht, hsound, hposted⟩ := postInterrupt_sound ns false h hv
      (hcase.imp_right And.left) (hcase.imp_right And.right)
    refine ⟨t, ht, hsound, hsound.delivered (fun v hval => ?_) fun hm => ?_⟩
    · obtain rfl := Option.some.inj hval
      exact hposted
    · cases hm
  | writeIMS val | writeIMC val => exact chkInterrupt_delivered ns h.enabled h.line rfl
  | writeIAM val | writeCtrlExt val => exact ⟨_, rfl, h.keep rfl rfl rfl rfl h.enabled rfl rfl⟩
  | interEvent =>
    simp only [step]
    split
    · exact ⟨s, rfl, h.keep rfl rfl rfl rfl h.enabled rfl rfl⟩
    · rename_i when _
      obtain ⟨hzero, hsame⟩ | ⟨_, hsound, _⟩ :=
        cpuPostInt_cases (s := { s with interEvent := none, curTick := when }) h.enabled
      · refine ⟨_, rfl, ?_⟩
        rw [hsame]
        have hsound : Sound { s with interEvent := none, curTick := when } :=
          ⟨h.enabled, fun hcause => absurd hzero hcause, h.line⟩
        exact ⟨hsound, hsound.delivered (fun v hv => by cases hv) fun hm => by cases hm⟩
      · exact ⟨_, rfl, hsound, hsound.delivered (fun v hv => by cases hv) fun hm => by cases hm⟩
  | wait ticks =>
    simp only [step]
    split <;> exact ⟨_, rfl, h.keep rfl rfl rfl rfl h.enabled rfl rfl⟩
  | delayTimers rx tx => exact ⟨_, rfl, h.keep rfl rfl rfl rfl h.enabled rfl rfl⟩
  | writeCommand interruptDisable => exact ⟨_, rfl, h.keep rfl rfl rfl rfl hop rfl rfl⟩

end Invariant

/-- In every run of the constructed device whose steps meet `Separate`, every further such
step returns, and after it no interrupt is lost. -/
theorem interrupts_delivered (ns numQueues : Nat) (commType : CommunicationType)
    (s : InterruptState) (op : InterruptOp)
    (hr : Reach (step ns) Separate (construct commType numQueues) s) (hop : s.Separate op) :
    ∃ t, s.step ns op = .ok t ∧ Delivered op t := by
  have hsound : s.Sound := by
    apply hr.invariant (P := Sound) (construct_sound commType numQueues)
    intro u v a hu ha hv
    obtain ⟨w, hw, hsound, _⟩ := step_delivered ns hu ha
    obtain rfl := eq_of_ok hw hv
    exact hsound
  obtain ⟨t, ht, _, hdelivered⟩ := step_delivered ns hsound hop
  exact ⟨t, ht, hdelivered⟩

instance (s : InterruptState) (op : InterruptOp) : Decidable (s.Separate op) :=
  match op with
  | .writeICS _ => inferInstanceAs (Decidable (_ ∧ _))
  | .writeCommand _ => inferInstanceAs (Decidable (_ = _))
  | .postInterrupt _ _ | .readICR | .writeICR _ | .writeITR _ | .writeIMS _ | .writeIMC _
  | .writeIAM _ | .writeCtrlExt _ | .interEvent | .wait _ | .delayTimers _ _ => isTrue trivial

theorem interrupts_delivered_throttled :
    ∃ s t, Reach (step 1000) Separate (construct .ring 1) s ∧
      s.step 1000 (.writeICS 0x82#32) = .ok t ∧ Delivered (.writeICS 0x82#32) t := by
  obtain ⟨s, hs, hp⟩ := Reach.exists_of_runFrom (step 1000) Separate (construct .ring 1)
    [.writeITR 200, .wait 1000, .writeIMS 0x83, .postInterrupt .txdw false]
    (fun s => s.Separate (.writeICS 0x82#32)) (by decide +kernel)
  obtain ⟨t, ht, hdelivered⟩ := interrupts_delivered 1000 1 .ring s (.writeICS 0x82#32) hs hp
  exact ⟨s, t, hs, ht, hdelivered⟩

/-- A value written to `ICS` is dropped whole when one of its causes is pending, and
`INT_ASSERT` written there is set without the line. -/
theorem ics_write_dropped :
    (∃ s t, Reach (step 1000) (fun _ _ => True) (construct .ring 1) s ∧
      s.step 1000 (.writeICS 0x3#32) = .ok t ∧ 0x3#32 &&& t.icr ≠ 0x3#32) ∧
    ∃ t, (construct .ring 1).step 1000 (.writeICS intAssertBit) = .ok t ∧
      t.intAssert = true ∧ t.line = false := by
  constructor
  · obtain ⟨s, hs, hp⟩ := Reach.exists_of_runFrom (step 1000) (fun _ _ => True)
      (construct .ring 1) [.postInterrupt .txdw false]
      (fun s => okAnd (s.step 1000 (.writeICS 0x3#32)) fun t =>
        decide (0x3#32 &&& t.icr ≠ 0x3#32)) (by decide +kernel)
    obtain ⟨t, ht, hbits⟩ := okAnd_iff.mp hp
    exact ⟨s, t, hs, ht, of_decide_eq_true hbits⟩
  · have hp : okAnd ((construct .ring 1).step 1000 (.writeICS intAssertBit))
        (fun t => t.intAssert && !t.line) = true := by decide +kernel
    obtain ⟨t, ht, hbits⟩ := okAnd_iff.mp hp
    rw [and_eq_true, not_eq_true'] at hbits
    exact ⟨t, ht, hbits⟩

end InterruptState

end Gem5.IGbE
