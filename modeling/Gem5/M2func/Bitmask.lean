import Gem5.Shared.Reachability
import Gem5.Shared.Sim
import Mathlib.Data.List.Basic
import Mathlib.Algebra.Order.Ring.Nat

/-!
# The bitmask of the transmit acknowledgements

`updateBitmask` sets the bit of each packet that has been sent, and doubles the bitmask if it is
full. `readBitmask` answers with a window of 32 bits from the read cursor on, and moves the cursor
to the first zero. The window may reach past the end of the bitmask, since only an update makes it
grow. Bit `k` of a list is bit `k % 8` of byte `k / 8`; all sizes are whole bytes.
-/

namespace Gem5.M2func

open List

def bitmaskExpandFactor : Nat := 2

def bitmaskWindowSizeBits : Nat := 32

def initialBitmaskSizeBytes : Nat := 64

structure Bitmask where
  bitmask : List Bool
  bitmaskSize : Nat
  updateCursor : Nat
  readCursor : Nat

namespace Bitmask

def construct : Bitmask :=
  ⟨List.replicate (initialBitmaskSizeBytes * 8) false, initialBitmaskSizeBytes * 8, 0, 0⟩

def expandBitmask (s : Bitmask) : Bitmask :=
  { s with
    bitmaskSize := s.bitmaskSize * bitmaskExpandFactor
    bitmask := s.bitmask ++
      List.replicate (s.bitmaskSize * bitmaskExpandFactor / bitmaskExpandFactor) false }

def updateBitmask (success : Bool) (s : Bitmask) : Sim Bitmask :=
  let s := if s.bitmaskSize ≤ s.updateCursor then s.expandBitmask else s
  if s.updateCursor < s.bitmask.length then
    .ok { s with
      bitmask := s.bitmask.set s.updateCursor success
      updateCursor := s.updateCursor + 1 }
  else .error .outOfBounds

structure Window where
  response : List Bool
  zeroIdx : Option Nat

def readBit (s : Bitmask) (w : Window) (i : Nat) : Sim Window :=
  match s.bitmask[s.readCursor + i]? with
  | none => .error .outOfBounds
  | some true => .ok { w with response := w.response.set i true }
  | some false => .ok { w with zeroIdx := some (w.zeroIdx.getD (s.readCursor + i)) }

/-- The first `k` rounds of the loop over the window. -/
def readBits (s : Bitmask) (w : Window) : Nat → Sim Window
  | 0 => .ok w
  | k + 1 => do
    let w ← s.readBits w k
    s.readBit w k

def readBitmask (pktSize : Nat) (s : Bitmask) : Sim (List Bool × Bitmask) := do
  simAssert (s.readCursor < s.updateCursor)
  simAssert (bitmaskWindowSizeBits ≤ pktSize * 8)
  let w ← s.readBits ⟨List.replicate (pktSize * 8) false, none⟩ bitmaskWindowSizeBits
  return (w.response,
    { s with readCursor := w.zeroIdx.getD (s.readCursor + bitmaskWindowSizeBits) })

end Bitmask

structure BitmaskRead where
  readCursor : Nat
  updateCursor : Nat
  response : List Bool

structure BitmaskRun where
  mask : Bitmask
  reads : List BitmaskRead

inductive BitmaskAct where
  | update (success : Bool)
  | read (pktSize : Nat)

namespace BitmaskRun

def start : BitmaskRun := ⟨Bitmask.construct, []⟩

def step (s : BitmaskRun) : BitmaskAct → Sim BitmaskRun
  | .update success => do
    let mask ← s.mask.updateBitmask success
    return { s with mask }
  | .read pktSize => do
    let r ← s.mask.readBitmask pktSize
    return ⟨r.2, s.reads ++ [⟨s.mask.readCursor, s.mask.updateCursor, r.1⟩]⟩

def Sent (_ : BitmaskRun) (a : BitmaskAct) : Prop := a ≠ .update false

instance (s : BitmaskRun) (a : BitmaskAct) : Decidable (s.Sent a) :=
  match a with
  | .update true => isTrue (by simp [Sent])
  | .update false => isFalse (by simp [Sent])
  | .read _ => isTrue (by simp [Sent])

end BitmaskRun

def leadingOnes (response : List Bool) : Nat := (response.takeWhile id).length

/-- The ones of the packets sent before `stop`, from `first` on, in a response of `n` bits. -/
def sentWindow (n first stop : Nat) : List Bool :=
  (List.range n).map fun i => decide (i < bitmaskWindowSizeBits ∧ first + i < stop)

/-- The bits below `stop` are set. -/
def onesBelow (n stop : Nat) : List Bool := (List.range n).map fun k => decide (k < stop)

section Lists

variable {n m stop i : Nat}

@[simp] theorem length_onesBelow : (onesBelow n stop).length = n := by simp [onesBelow]

theorem getElem?_onesBelow :
    (onesBelow n stop)[i]? = if i < n then some (decide (i < stop)) else none := by
  by_cases hi : i < n <;> simp [onesBelow, hi]

theorem onesBelow_zero : onesBelow n 0 = List.replicate n false := by
  apply ext_getElem?
  intro i
  rw [getElem?_onesBelow, List.getElem?_replicate]
  simp

theorem onesBelow_append (h : stop ≤ n) :
    onesBelow n stop ++ List.replicate m false = onesBelow (n + m) stop := by
  apply ext_getElem?
  intro i
  rw [List.getElem?_append, length_onesBelow, getElem?_onesBelow, getElem?_onesBelow,
    List.getElem?_replicate]
  by_cases hi : i < n
  · have him : i < n + m := by omega
    simp only [hi, him, if_true]
  · have hstop : ¬ i < stop := by omega
    have hiff : i - n < m ↔ i < n + m := by omega
    simp only [hi, hstop, hiff, if_false, decide_false]

theorem set_onesBelow : (onesBelow n stop).set stop true = onesBelow n (stop + 1) := by
  apply ext_getElem?
  intro i
  rw [List.getElem?_set, getElem?_onesBelow, getElem?_onesBelow]
  by_cases hi : stop = i
  · subst hi
    simp
  · have hiff : i < stop ↔ i < stop + 1 := by omega
    simp only [hi, if_false, hiff]

theorem length_takeWhile_onesBelow : leadingOnes (onesBelow n stop) = min n stop := by
  induction n generalizing stop with
  | zero => simp [leadingOnes, onesBelow]
  | succ n ih =>
    cases stop with
    | zero =>
      rw [onesBelow_zero, leadingOnes]
      simp
    | succ stop =>
      have hcons : onesBelow (n + 1) (stop + 1) = true :: onesBelow n stop := by
        rw [onesBelow, range_succ_eq_map]
        simp [onesBelow, Function.comp_def]
      have ih := @ih stop
      rw [leadingOnes] at ih
      rw [hcons, leadingOnes, takeWhile_cons_of_pos rfl, length_cons]
      omega

theorem sentWindow_eq {first : Nat} :
    sentWindow n first stop = onesBelow n (min bitmaskWindowSizeBits (stop - first)) := by
  apply map_congr_left
  intro i _
  apply decide_eq_decide.mpr
  omega

end Lists

namespace Bitmask

variable {s : Bitmask} {k n pktSize : Nat}

structure Sound (s : Bitmask) : Prop where
  bits_eq : s.bitmask = onesBelow s.bitmaskSize s.updateCursor
  size_pos : 0 < s.bitmaskSize
  update_le : s.updateCursor ≤ s.bitmaskSize
  read_le : s.readCursor ≤ s.updateCursor

theorem construct_sound : construct.Sound :=
  ⟨onesBelow_zero.symm, by decide, Nat.zero_le _, Nat.le_refl _⟩

section

variable (hs : s.Sound)
include hs

theorem expandBitmask_sound : s.expandBitmask.Sound := by
  have hle := hs.update_le
  have hpos := hs.size_pos
  have hsize : s.bitmaskSize + s.bitmaskSize = s.bitmaskSize * bitmaskExpandFactor := by
    rw [bitmaskExpandFactor]
    omega
  have hhalf : s.bitmaskSize * bitmaskExpandFactor / bitmaskExpandFactor = s.bitmaskSize :=
    Nat.mul_div_cancel _ (by decide)
  refine ⟨?_, ?_, ?_, hs.read_le⟩
  · show s.bitmask ++ _ = onesBelow (s.bitmaskSize * bitmaskExpandFactor) s.updateCursor
    rw [hs.bits_eq, hhalf, onesBelow_append hle, hsize]
  · show 0 < s.bitmaskSize * bitmaskExpandFactor
    omega
  · show s.updateCursor ≤ s.bitmaskSize * bitmaskExpandFactor
    omega

theorem updateCursor_lt_expandBitmask :
    s.expandBitmask.updateCursor < s.expandBitmask.bitmaskSize := by
  have hle := hs.update_le
  have hpos := hs.size_pos
  show s.updateCursor < s.bitmaskSize * bitmaskExpandFactor
  rw [bitmaskExpandFactor]
  omega

theorem set_sound (hlt : s.updateCursor < s.bitmaskSize) : { s with
      bitmask := s.bitmask.set s.updateCursor true
      updateCursor := s.updateCursor + 1 : Bitmask }.Sound := by
  refine ⟨?_, hs.size_pos, hlt, Nat.le_succ_of_le hs.read_le⟩
  rw [hs.bits_eq, set_onesBelow]

theorem updateBitmask_true :
    ∃ t, s.updateBitmask true = .ok t ∧ t.Sound ∧ t.readCursor = s.readCursor := by
  have hgrown : ∃ u : Bitmask, (if s.bitmaskSize ≤ s.updateCursor then s.expandBitmask else s) = u ∧
      u.Sound ∧ u.updateCursor < u.bitmaskSize ∧ u.readCursor = s.readCursor := by
    by_cases hfull : s.bitmaskSize ≤ s.updateCursor
    · rw [if_pos hfull]
      exact ⟨_, rfl, expandBitmask_sound hs, updateCursor_lt_expandBitmask hs, rfl⟩
    · rw [if_neg hfull]
      exact ⟨_, rfl, hs, not_le.mp hfull, rfl⟩
  obtain ⟨u, hu, hsound, hlt, hread⟩ := hgrown
  have hlen : u.updateCursor < u.bitmask.length := by rwa [hsound.bits_eq, length_onesBelow]
  refine ⟨_, ?_, set_sound hsound hlt, hread⟩
  rw [updateBitmask, hu]
  exact if_pos hlen

section

variable (hlt : s.readCursor < s.updateCursor)
include hlt

theorem readBits_eq (hk : s.readCursor + k ≤ s.bitmaskSize) :
    s.readBits ⟨List.replicate n false, none⟩ k =
      .ok ⟨onesBelow n (min k (s.updateCursor - s.readCursor)),
        if s.readCursor + k ≤ s.updateCursor then none else some s.updateCursor⟩ := by
  induction k with
  | zero =>
    rw [readBits, if_pos (by omega), Nat.zero_min, onesBelow_zero]
  | succ k ih =>
    have hbit :
        s.bitmask[s.readCursor + k]? = some (decide (s.readCursor + k < s.updateCursor)) := by
      rw [hs.bits_eq, getElem?_onesBelow, if_pos (by omega)]
    rw [readBits, ih (by omega), sim_ok_bind, readBit, hbit]
    by_cases hone : s.readCursor + k < s.updateCursor
    · have hmin : min k (s.updateCursor - s.readCursor) = k := by omega
      have hmin' : min (k + 1) (s.updateCursor - s.readCursor) = k + 1 := by omega
      rw [decide_eq_true hone, hmin, hmin', if_pos (by omega), if_pos (by omega)]
      rw [set_onesBelow]
    · have hmin :
          min (k + 1) (s.updateCursor - s.readCursor) = min k (s.updateCursor - s.readCursor) := by
        omega
      rw [decide_eq_false hone, hmin]
      -- the first zero is the one at the update cursor
      by_cases hfirst : s.readCursor + k = s.updateCursor
      · rw [if_pos (by omega), if_neg (by omega), Option.getD_none, hfirst]
      · rw [if_neg (by omega), if_neg (by omega), Option.getD_some]

theorem readBits_outOfBounds {w : Window}
    (hk : s.bitmaskSize < s.readCursor + k) : ∀ u, s.readBits w k ≠ .ok u := by
  induction k with
  | zero =>
    have hle := hs.update_le
    omega
  | succ k ih =>
    intro u hu
    obtain ⟨v, hv, hu⟩ := bind_eq_ok.mp hu
    by_cases hend : s.bitmaskSize < s.readCursor + k
    · exact ih hend v hv
    · have hbit : s.bitmask[s.readCursor + k]? = none := by
        rw [hs.bits_eq, getElem?_onesBelow, if_neg (by omega)]
      rw [readBit, hbit] at hu
      nomatch hu

theorem readBitmask_eq (hpkt : bitmaskWindowSizeBits ≤ pktSize * 8)
    (hend : s.readCursor + bitmaskWindowSizeBits ≤ s.bitmaskSize) :
    s.readBitmask pktSize = .ok (sentWindow (pktSize * 8) s.readCursor s.updateCursor,
      { s with readCursor :=
        s.readCursor + min bitmaskWindowSizeBits (s.updateCursor - s.readCursor) }) := by
  rw [readBitmask, simAssert_of (decide_eq_true hlt), simAssert_of (decide_eq_true hpkt),
    readBits_eq hs hlt hend, sentWindow_eq]
  by_cases hall : s.readCursor + bitmaskWindowSizeBits ≤ s.updateCursor
  · have hmin :
        min bitmaskWindowSizeBits (s.updateCursor - s.readCursor) = bitmaskWindowSizeBits := by
      omega
    rw [if_pos hall, hmin]
    rfl
  · have hmin : s.readCursor + min bitmaskWindowSizeBits (s.updateCursor - s.readCursor) =
        s.updateCursor := by omega
    rw [if_neg hall, hmin]
    rfl

theorem readBitmask_ok_iff (hpkt : bitmaskWindowSizeBits ≤ pktSize * 8) :
    (∃ r, s.readBitmask pktSize = .ok r) ↔
      s.readCursor + bitmaskWindowSizeBits ≤ s.bitmaskSize := by
  constructor
  · rintro ⟨r, hr⟩
    apply not_lt.mp
    intro hend
    rw [readBitmask, simAssert_of (decide_eq_true hlt), sim_ok_bind,
      simAssert_of (decide_eq_true hpkt),
      sim_ok_bind] at hr
    obtain ⟨w, hw, _⟩ := bind_eq_ok.mp hr
    exact readBits_outOfBounds hs hlt hend w hw
  · intro hend
    exact ⟨_, readBitmask_eq hs hlt hpkt hend⟩

end

end

theorem asserts_of_readBitmask {r : List Bool × Bitmask} (hr : s.readBitmask pktSize = .ok r) :
    s.readCursor < s.updateCursor ∧ bitmaskWindowSizeBits ≤ pktSize * 8 := by
  obtain ⟨_, hlt, hr⟩ := bind_eq_ok.mp hr
  obtain ⟨_, hpkt, _⟩ := bind_eq_ok.mp hr
  exact ⟨of_decide_eq_true (simAssert_eq_ok.mp hlt), of_decide_eq_true (simAssert_eq_ok.mp hpkt)⟩

end Bitmask

def BitmaskRead.Right (r : BitmaskRead) : Prop :=
  ∃ pktSize, bitmaskWindowSizeBits ≤ pktSize * 8 ∧
    r.response = sentWindow (pktSize * 8) r.readCursor r.updateCursor

namespace BitmaskRun

variable {s t : BitmaskRun} {a : BitmaskAct}

def acknowledged (s : BitmaskRun) : Nat := (s.reads.map fun r => leadingOnes r.response).sum

structure Inv (s : BitmaskRun) : Prop where
  sound : s.mask.Sound
  right : ∀ r ∈ s.reads, r.Right
  acknowledged_eq : s.acknowledged = s.mask.readCursor

theorem start_inv : start.Inv := ⟨Bitmask.construct_sound, fun _ hr => (nomatch hr), rfl⟩

theorem update_inv (hs : s.Inv) (hstep : s.step (.update true) = .ok t) : t.Inv := by
  obtain ⟨mask, hmask, hsound, hread⟩ := Bitmask.updateBitmask_true hs.sound
  rw [step, hmask] at hstep
  cases hstep
  exact ⟨hsound, hs.right, hs.acknowledged_eq.trans hread.symm⟩

theorem read_inv {pktSize : Nat} (hs : s.Inv) (hstep : s.step (.read pktSize) = .ok t) : t.Inv := by
  obtain ⟨r, hr, hstep⟩ := bind_eq_ok.mp hstep
  obtain ⟨hlt, hpkt⟩ := Bitmask.asserts_of_readBitmask hr
  have hend := (Bitmask.readBitmask_ok_iff hs.sound hlt hpkt).mp ⟨r, hr⟩
  rw [Bitmask.readBitmask_eq hs.sound hlt hpkt hend] at hr
  cases hr
  cases hstep
  have hones : leadingOnes (sentWindow (pktSize * 8) s.mask.readCursor s.mask.updateCursor) =
      min bitmaskWindowSizeBits (s.mask.updateCursor - s.mask.readCursor) := by
    rw [sentWindow_eq, length_takeWhile_onesBelow]
    omega
  refine ⟨⟨hs.sound.bits_eq, hs.sound.size_pos, hs.sound.update_le, ?_⟩, ?_, ?_⟩
  · show s.mask.readCursor + min _ (s.mask.updateCursor - s.mask.readCursor) ≤ s.mask.updateCursor
    omega
  · intro r hr
    rcases mem_append.mp hr with hr | hr
    · exact hs.right r hr
    · cases mem_singleton.mp hr
      exact ⟨pktSize, hpkt, rfl⟩
  · have hacc := hs.acknowledged_eq
    rw [acknowledged] at hacc
    rw [acknowledged, map_append, sum_append, hacc, map_singleton, sum_singleton, hones]

theorem step_inv (hs : s.Inv) (ha : s.Sent a) (hstep : s.step a = .ok t) : t.Inv := by
  cases a with
  | update success =>
    cases success with
    | false => exact absurd rfl ha
    | true => exact update_inv hs hstep
  | read pktSize => exact read_inv hs hstep

theorem reach_inv (hr : Reach step Sent start s) : s.Inv :=
  hr.invariant start_inv step_inv

/-- In every run in which all packets are sent: the cursors are in order, every response is the
window of the packets sent, and the responses acknowledge each packet below the read cursor once.
The next read, if its asserts hold, stays inside the bitmask exactly if its window does. -/
theorem acknowledgements (hr : Reach step Sent start s) :
    s.mask.readCursor ≤ s.mask.updateCursor ∧ s.mask.updateCursor ≤ s.mask.bitmaskSize ∧
    (∀ r ∈ s.reads, r.Right) ∧ s.acknowledged = s.mask.readCursor ∧
    ∀ pktSize, s.mask.readCursor < s.mask.updateCursor → bitmaskWindowSizeBits ≤ pktSize * 8 →
      ((∃ t, s.step (.read pktSize) = .ok t) ↔
        s.mask.readCursor + bitmaskWindowSizeBits ≤ s.mask.bitmaskSize) := by
  have hs := reach_inv hr
  refine ⟨hs.sound.read_le, hs.sound.update_le, hs.right, hs.acknowledged_eq,
    fun pktSize hlt hpkt => ?_⟩
  rw [← Bitmask.readBitmask_ok_iff hs.sound hlt hpkt]
  constructor
  · rintro ⟨t, hstep⟩
    obtain ⟨r, hread, _⟩ := bind_eq_ok.mp hstep
    exact ⟨r, hread⟩
  · rintro ⟨r, hread⟩
    exact ⟨_, by rw [step, hread, sim_ok_bind]; rfl⟩

theorem acknowledgements_two_packets :
    ∃ s, Reach step Sent start s ∧ s.mask.readCursor = 2 ∧ s.acknowledged = s.mask.readCursor := by
  obtain ⟨s, hr, hs⟩ :=
    Reach.exists_of_runFrom step Sent start [.update true, .update true, .read 4]
    (fun s => s.mask.readCursor = 2) (by decide +kernel)
  exact ⟨s, hr, hs, (acknowledgements hr).2.2.2.1⟩

/-- With 482 packets sent and 481 acknowledged, the last bit of the window is bit 512 of a bitmask
of 512 bits. -/
theorem read_past_bitmask :
    ∃ s, Reach step Sent start s ∧ s.mask.readCursor < s.mask.updateCursor ∧
      s.step (.read 4) = .error .outOfBounds :=
  Reach.exists_of_run
    (List.replicate 481 (.update true) ++ List.replicate 16 (.read 4) ++ [.update true])
    (by decide +kernel)

end BitmaskRun

end Gem5.M2func
