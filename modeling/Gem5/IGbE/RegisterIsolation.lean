import Gem5.IGbE.Registers
import Mathlib.Data.List.TakeWhile

/-!
# Isolation of the queues' registers

From queue 4 on the registers lie 0x40 bytes apart, and the addresses for packets without rings
and for jobs lie one and three such steps behind the base address register. They are therefore
the base address of a later queue, which is tested first.
-/

namespace Gem5.IGbE.Registers

open BitVec List Nat

variable {ρ τ ν : Type} {access : Access} {f g : Family} {q r n : Nat}

/-! ### Addresses -/

/-- Side, offset inside a step of 0x40 bytes, and number of steps. -/
def Family.place : Family → Bool × Nat × Nat
  | .rdbal => (false, 0x00, 0)
  | .rdbah => (false, 0x04, 0)
  | .rdlen => (false, 0x08, 0)
  | .srrctl => (false, 0x0C, 0)
  | .rdh => (false, 0x10, 0)
  | .rxctl => (false, 0x14, 0)
  | .rdt => (false, 0x18, 0)
  | .rxdctl => (false, 0x28, 0)
  | .rqdpc => (false, 0x30, 0)
  | .rxM2func => (false, 0x00, 1)
  | .rxDta => (false, 0x00, 3)
  | .tdbal => (true, 0x00, 0)
  | .tdbah => (true, 0x04, 0)
  | .tdlen => (true, 0x08, 0)
  | .tdh => (true, 0x10, 0)
  | .txdcaCtl => (true, 0x14, 0)
  | .tdt => (true, 0x18, 0)
  | .txdctl => (true, 0x28, 0)
  | .tdwbal => (true, 0x38, 0)
  | .tdwbah => (true, 0x3C, 0)
  | .txM2func => (true, 0x00, 1)
  | .txDta => (true, 0x00, 3)

def Family.isTx (f : Family) : Bool := f.place.1

def Family.low (f : Family) : Nat := f.place.2.1

def Family.steps (f : Family) : Nat := f.place.2.2

theorem Family.addr_eq (f : Family) (n : Nat) : f.addr n =
    if n < 4 then (if f.isTx then 0x3800 else 0x2800) + f.low + f.steps * 0x40 + n * 0x100
    else (if f.isTx then 0xE000 else 0xC000) + f.low + (f.steps + n) * 0x40 := by
  cases f <;> simp only [Family.addr, queueAddr, Family.isTx, Family.low, Family.steps,
    Family.place] <;> split <;> simp <;> omega

theorem Family.low_spec (f : Family) :
    f.low < 0x40 ∧ f.low ≠ 0x20 ∧ f.low ≠ 0x2C ∧ f.steps ≤ 3 := by
  cases f <;> decide

def families : List Family :=
  [.rdbal, .rdbah, .rdlen, .srrctl, .rdh, .rxctl, .rdt, .rxdctl, .rqdpc, .rxM2func, .rxDta, .tdbal,
    .tdbah, .tdlen, .tdh, .txdcaCtl, .tdt, .txdctl, .tdwbal, .tdwbah, .txM2func, .txDta]

theorem find_place (f : Family) : families.find? (fun g => g.place = f.place) = some f := by
  cases f <;> rfl

theorem place_injective (h : f.place = g.place) : f = g := by
  have hf := find_place f
  rw [h, find_place g] at hf
  exact (Option.some.inj hf).symm

theorem addr_collision (hq : q < 16) (hr : r < 16) (h : g.addr r = f.addr q) :
    (g = f ∧ r = q) ∨ (4 ≤ q ∧ g.isTx = f.isTx ∧ g.low = f.low ∧ g.steps + r = f.steps + q) := by
  obtain ⟨hf, -, -, hfs⟩ := f.low_spec
  obtain ⟨hg, -, -, hgs⟩ := g.low_spec
  rw [g.addr_eq, f.addr_eq] at h
  have hside : g.isTx = f.isTx := by
    cases hgt : g.isTx <;> cases hft : f.isTx
    · rfl
    · simp only [hgt, Bool.false_eq_true, if_false] at h
      split at h <;> split at h <;> omega
    · simp only [hft, Bool.false_eq_true, if_false] at h
      split at h <;> split at h <;> omega
    · rfl
  rw [hside] at h
  by_cases hq4 : q < 4
  · by_cases hr4 : r < 4
    · rw [if_pos hq4, if_pos hr4] at h
      have hlow : g.low = f.low := by omega
      have hsteps : g.steps = f.steps := by omega
      refine .inl ⟨place_injective (Prod.ext hside (Prod.ext hlow hsteps)), by omega⟩
    · rw [if_neg hr4] at h
      split at h <;> omega
  · by_cases hr4 : r < 4
    · rw [if_pos hr4] at h
      split at h <;> omega
    · rw [if_neg hq4, if_neg hr4] at h
      refine .inr ⟨by omega, hside, ?_, ?_⟩ <;> omega

theorem addr_eq_of_shift (hq : 4 ≤ q) (hr : 4 ≤ r) (hside : g.isTx = f.isTx) (hlow : g.low = f.low)
    (hsteps : g.steps + r = f.steps + q) : g.addr r = f.addr q := by
  rw [g.addr_eq, f.addr_eq, if_neg (Nat.not_lt.mpr hq), if_neg (Nat.not_lt.mpr hr), hside, hlow,
    hsteps]

theorem addr_injective (hq : q < 16) (hr : r < 16) (h : f.addr r = f.addr q) : r = q := by
  rcases addr_collision hq hr h with ⟨-, heq⟩ | ⟨-, -, -, hsteps⟩
  · exact heq
  · omega

theorem addr_not_fixed (hq : q < 16) : f.addr q ∉ fixedAddrs access := by
  have hfixed : ∀ a ∈ fixedAddrs access, a < 0x2800 ∨ a = 0x2820 ∨ a = 0x282C ∨ a = 0x3820 ∨
      a = 0x382C ∨ (0x5000 ≤ a ∧ a < 0x6000) := by
    cases access <;> decide
  intro hmem
  obtain ⟨hlow, h20, h2c, hsteps⟩ := f.low_spec
  have hcases := hfixed _ hmem
  rw [f.addr_eq] at hcases
  split at hcases <;> split at hcases <;> omega

/-! ### The chain of tests -/

theorem isRegisterAddress_self (hq : q < n) (hn : n ≤ 16) :
    isRegisterAddress f (f.addr q) n = some q := by
  apply List.find?_range_eq_some.mpr
  refine ⟨by simp, mem_range.mpr hq, ?_⟩
  intro j hj
  have hne : f.addr q ≠ f.addr j := by
    intro heq
    have := addr_injective (by omega) (by omega) heq.symm
    omega
  simpa using hne

theorem isRegisterAddress_none {daddr : Nat} :
    isRegisterAddress f daddr n = none ↔ ∀ r < n, f.addr r ≠ daddr := by
  unfold isRegisterAddress
  rw [List.find?_eq_none]
  constructor
  · intro h r hr heq
    exact h r (mem_range.mpr hr) (by simp [heq])
  · intro h r hr hbeq
    exact h r (mem_range.mp hr) (by simpa using (beq_iff_eq.mp hbeq).symm)

/-- The families that are tested before `f`. -/
def before (access : Access) (f : Family) : List Family := (testOrder access).takeWhile (· ≠ f)

theorem findSome?_eq_some_iff_before (chain : List Family) (test : Family → Option Nat)
    (hf : test f = some q) : chain.findSome? (fun g => (test g).map (g, ·)) = some (f, q) ↔
      f ∈ chain ∧ ∀ g ∈ chain.takeWhile (· ≠ f), test g = none := by
  induction chain with
  | nil => simp
  | cons g rest ih =>
    by_cases hg : g = f
    · subst hg
      simp [hf]
    · rw [List.findSome?_cons, takeWhile_cons_of_pos (by simpa using hg)]
      cases htest : test g with
      | some r =>
        constructor
        · intro h
          exact absurd (congrArg Prod.fst (Option.some.inj h)) hg
        · rintro ⟨-, hnone⟩
          have hg' := hnone g mem_cons_self
          rw [htest] at hg'
          cases hg'
      | none =>
        refine ih.trans ?_
        constructor
        · rintro ⟨hmem, hnone⟩
          refine ⟨mem_cons_of_mem g hmem, fun x hx => ?_⟩
          rcases mem_cons.mp hx with rfl | hx
          · exact htest
          · exact hnone x hx
        · rintro ⟨hmem, hnone⟩
          refine ⟨(mem_cons.mp hmem).resolve_left (Ne.symm hg), fun x hx => ?_⟩
          exact hnone x (mem_cons_of_mem g hx)

theorem target_iff (hq : q < n) (hn : n ≤ 16) : target access n (f.addr q) = .queue f q ↔
      f ∈ testOrder access ∧ ∀ g ∈ before access f, ∀ r < n, g.addr r ≠ f.addr q := by
  have hself := isRegisterAddress_self (f := f) hq hn
  have hchain := findSome?_eq_some_iff_before (testOrder access)
    (fun g => isRegisterAddress g (f.addr q) n) hself
  have htests : (∀ g ∈ before access f, isRegisterAddress g (f.addr q) n = none) ↔
      ∀ g ∈ before access f, ∀ r < n, g.addr r ≠ f.addr q :=
    forall₂_congr fun _ _ => isRegisterAddress_none
  rw [← htests]
  refine Iff.trans ?_ hchain
  rw [target, if_neg (addr_not_fixed (by omega))]
  constructor
  · intro h
    split at h
    · rename_i found hfound
      cases h
      exact hfound
    · split at h
      · cases h
      · split at h
        · cases h
        · split at h <;> cases h
  · intro h
    rw [h]

/-- The earlier tests that can take an access to `f`. -/
def rivals (access : Access) (f : Family) : List Family :=
  (before access f).filter fun g => g.isTx = f.isTx ∧ g.low = f.low

theorem before_ne (hg : g ∈ before access f) : g ≠ f := by
  have h := mem_takeWhile_imp hg
  simpa using h

theorem no_collision_iff (hq : q < n) (hn : n ≤ 16)
    (hsteps : ∀ g ∈ rivals access f, g.steps ≤ f.steps) :
    (∀ g ∈ before access f, ∀ r < n, g.addr r ≠ f.addr q) ↔
      q < 4 ∨ ∀ g ∈ rivals access f, n ≤ f.steps + q - g.steps := by
  constructor
  · intro h
    by_cases hq4 : q < 4
    · exact .inl hq4
    · refine .inr fun g hg => ?_
      obtain ⟨hbefore, hsame⟩ := mem_filter.mp hg
      obtain ⟨hside, hlow⟩ := of_decide_eq_true hsame
      have hle := hsteps g hg
      by_contra hlt
      exact h g hbefore (f.steps + q - g.steps) (by omega)
        (addr_eq_of_shift (by omega) (by omega) hside hlow (by omega))
  · intro h g hg r hr heq
    rcases addr_collision (by omega) (by omega) heq with ⟨hgf, -⟩ | ⟨hq4, hside, hlow, hshift⟩
    · exact before_ne hg hgf
    · have hrival : g ∈ rivals access f :=
        mem_filter.mpr ⟨hg, decide_eq_true ⟨hside, hlow⟩⟩
      rcases h with h | h
      · omega
      · have := h g hrival
        omega

def Decoded (access : Access) (f : Family) (q n : Nat) : Prop :=
  match f with
  | .rxctl | .rqdpc => False
  | .rxM2func | .txM2func => q < 4 ∨ n ≤ q + 1
  | .rxDta | .txDta => access = .write ∧ (q < 4 ∨ n ≤ q + 2)
  | _ => True

theorem rivals_rxM2func : rivals access .rxM2func = [.rdbal] := by cases access <;> rfl

theorem rivals_txM2func : rivals access .txM2func = [.tdbal] := by cases access <;> rfl

theorem rivals_rxDta : rivals .write .rxDta = [.rdbal, .rxM2func] := rfl

theorem rivals_txDta : rivals .write .txDta = [.tdbal, .txM2func] := rfl

theorem rivals_eq_nil (hf : f.low ≠ 0 ∨ f.steps = 0) : rivals access f = [] := by
  cases access <;> cases f <;> first | rfl | (exfalso; revert hf; decide)

theorem decoded_of_rivals (hq : q < n) (hn : n ≤ 16) (hmem : f ∈ testOrder access)
    (hsteps : ∀ g ∈ rivals access f, g.steps ≤ f.steps) : target access n (f.addr q) = .queue f q ↔
      q < 4 ∨ ∀ g ∈ rivals access f, n ≤ f.steps + q - g.steps := by
  rw [target_iff hq hn, no_collision_iff hq hn hsteps]
  exact ⟨fun h => h.2, fun h => ⟨hmem, h⟩⟩

theorem not_target_of_untested (hq : q < n) (hn : n ≤ 16) (hmem : f ∉ testOrder access) :
    ¬ target access n (f.addr q) = .queue f q := by
  rw [target_iff hq hn]
  exact fun h => hmem h.1

theorem target_iff_m2func (hq : q < n) (hn : n ≤ 16) (hmem : f ∈ testOrder access)
    (hrivals : rivals access f = [g]) (hf : f.steps = 1) (hg : g.steps = 0) :
    target access n (f.addr q) = .queue f q ↔ q < 4 ∨ n ≤ q + 1 := by
  rw [decoded_of_rivals hq hn hmem (by simp [hrivals, hg]), hrivals]
  simp only [forall_mem_singleton]
  omega

theorem target_iff_dta (hq : q < n) (hn : n ≤ 16) {h : Family} (hmem : f ∈ testOrder access)
    (hrivals : rivals access f = [g, h]) (hf : f.steps = 3) (hg : g.steps = 0) (hh : h.steps = 1) :
    target access n (f.addr q) = .queue f q ↔ q < 4 ∨ n ≤ q + 2 := by
  rw [decoded_of_rivals hq hn hmem (by simp [hrivals, hf, hg, hh]), hrivals]
  simp only [forall_mem_cons, not_mem_nil, false_imp_iff, implies_true, and_true]
  omega

theorem target_iff_plain (hq : q < n) (hn : n ≤ 16) (hplain : f.low ≠ 0 ∨ f.steps = 0) :
    target access n (f.addr q) = .queue f q ↔ f ∈ testOrder access := by
  have hnil : rivals access f = [] := rivals_eq_nil hplain
  rw [target_iff hq hn, no_collision_iff hq hn (by rw [hnil]; exact fun g hg => nomatch hg), hnil]
  exact ⟨fun h => h.1, fun h => ⟨h, .inr fun g hg => nomatch hg⟩⟩

theorem target_iff_decoded (hq : q < n) (hn : n ≤ 16) :
    target access n (f.addr q) = .queue f q ↔ Decoded access f q n := by
  by_cases hplain : f.low ≠ 0 ∨ f.steps = 0
  · rw [target_iff_plain hq hn hplain]
    cases access <;> cases f <;>
      first
      | exact ⟨fun _ => trivial, fun _ => by decide⟩
      | exact ⟨fun h => absurd h (by decide), False.elim⟩
      | (exfalso; revert hplain; decide)
  · have hfour : f = .rxM2func ∨ f = .txM2func ∨ f = .rxDta ∨ f = .txDta := by
      cases f <;> first | decide | (exfalso; revert hplain; decide)
    rcases hfour with rfl | rfl | rfl | rfl
    · exact target_iff_m2func hq hn (by cases access <;> decide) rivals_rxM2func rfl rfl
    · exact target_iff_m2func hq hn (by cases access <;> decide) rivals_txM2func rfl rfl
    · cases access with
      | read => exact iff_of_false (not_target_of_untested hq hn (by decide)) (fun h => nomatch h.1)
      | write =>
        rw [target_iff_dta hq hn (by decide) rivals_rxDta rfl rfl rfl]
        exact ⟨fun h => ⟨rfl, h⟩, fun h => h.2⟩
    · cases access with
      | read => exact iff_of_false (not_target_of_untested hq hn (by decide)) (fun h => nomatch h.1)
      | write =>
        rw [target_iff_dta hq hn (by decide) rivals_txDta rfl rfl rfl]
        exact ⟨fun h => ⟨rfl, h⟩, fun h => h.2⟩

/-! ### What a write leaves alone -/

variable {ops : Ops ρ τ ν} {commType : CommunicationType} {a b : Queue ρ τ ν}

theorem rxChanged_regs (h : a.rxChanged ops commType = .ok b) : b.regs = a.regs := by
  unfold Queue.rxChanged at h
  split at h
  · obtain ⟨_, -, rfl⟩ := map_eq_ok.mp h
    rfl
  · cases h
    rfl

theorem txChanged_regs (h : a.txChanged ops commType = .ok b) : b.regs = a.regs := by
  unfold Queue.txChanged at h
  split at h
  · obtain ⟨_, -, rfl⟩ := map_eq_ok.mp h
    rfl
  · cases h
    rfl

theorem completion_regs (ops : Ops ρ τ ν) (commType : CommunicationType) (a : Queue ρ τ ν) :
    (a.completion ops commType).regs = a.regs := by
  unfold Queue.completion
  split <;> rfl

def QueueRegs.set (regs : QueueRegs) (f : Family) (val : BitVec 32) : QueueRegs :=
  match f with
  | .rdbal => { regs with rdba := highHalf regs.rdba ++ (val &&& ~~~15#32) }
  | .rdbah => { regs with rdba := val ++ lowHalf regs.rdba }
  | .rdlen => { regs with rdlen := val &&& ~~~127#32 }
  | .srrctl => { regs with srrctl := val }
  | .rdh => { regs with rdh := val }
  | .rdt => { regs with rdt := val }
  | .rxdctl => { regs with rxdctl := val }
  | .tdbal => { regs with tdba := highHalf regs.tdba ++ (val &&& ~~~15#32) }
  | .tdbah => { regs with tdba := val ++ lowHalf regs.tdba }
  | .tdlen => { regs with tdlen := val &&& ~~~127#32 }
  | .tdh => { regs with tdh := val }
  | .txdcaCtl => { regs with txdcaCtl := val }
  | .tdt => { regs with tdt := val }
  | .txdctl => { regs with txdctl := val }
  | .tdwbal => { regs with tdwba := regs.tdwba &&& ~~~0xFFFFFFFF#64 ||| val.setWidth 64 }
  | .tdwbah => { regs with tdwba := regs.tdwba &&& 0xFFFFFFFF#64 ||| val.setWidth 64 <<< 32 }
  | .rxctl | .rqdpc | .rxM2func | .rxDta | .txM2func | .txDta => regs

theorem write_regs {enableDTA running : Bool} {data : List UInt8}
    (h : a.write ops commType enableDTA running f data = .ok b) :
    b.regs = a.regs.set f (registerValue data) := by
  cases f with
  | rdbal | rdbah | rdlen | rdh => exact rxChanged_regs h
  | tdbal | tdbah | tdlen | tdh => exact txChanged_regs h
  | srrctl | rxdctl | txdctl | rxDta | txDta => cases h; rfl
  | tdwbal | tdwbah => cases h; exact completion_regs _ _ _
  | rxctl | rqdpc => cases h
  | rdt | tdt =>
    simp only [Queue.write] at h
    split at h
    · obtain ⟨_, -, rfl⟩ := map_eq_ok.mp h
      rfl
    · cases h
      rfl
  | rxM2func =>
    simp only [Queue.write] at h
    split at h
    · cases h
      rfl
    · cases h
  | txdcaCtl =>
    simp only [Queue.write] at h
    split at h
    · cases h
    · cases h
      rfl
  | txM2func =>
    simp only [Queue.write] at h
    split at h
    · split at h
      · cases h
      · obtain ⟨_, -, rfl⟩ := map_eq_ok.mp h
        rfl
    · cases h

theorem lowHalf_append (high low : BitVec 32) : lowHalf (high ++ low) = low := by
  apply eq_of_toNat_eq
  change ((high ++ low).toNat >>> 0) % 2 ^ 32 = _
  rw [toNat_append, ← shiftLeft_add_eq_or_of_lt low.isLt, Nat.shiftLeft_eq,
    shiftRight_zero, mul_comm, mul_add_mod, mod_eq_of_lt low.isLt]

theorem highHalf_append (high low : BitVec 32) : highHalf (high ++ low) = high := by
  apply eq_of_toNat_eq
  have hlow := low.isLt
  change ((high ++ low).toNat >>> 32) % 2 ^ 32 = _
  rw [toNat_append, ← shiftLeft_add_eq_or_of_lt hlow]
  omega

theorem mask32_bit (i : Nat) : (0xFFFFFFFF#64).getLsbD i = decide (i < 32) := by
  rw [getLsbD_ofNat, show 0xFFFFFFFF = 2 ^ 32 - 1 from rfl, testBit_two_pow_sub_one]
  by_cases h : i < 32
  · simp [show i < 64 by omega]
  · simp [h]

theorem highHalf_keep (x : BitVec 64) (val : BitVec 32) :
    highHalf (x &&& ~~~0xFFFFFFFF#64 ||| val.setWidth 64) = highHalf x := by
  apply eq_of_getLsbD_eq
  intro i hi
  have hlow : val.getLsbD (32 + i) = false := getLsbD_of_ge _ _ (by omega)
  simp only [highHalf, getLsbD_extractLsb', getLsbD_or, getLsbD_and,
    getLsbD_not, mask32_bit]
  simp [hi, show 32 + i < 64 by omega]

theorem lowHalf_keep (x : BitVec 64) (val : BitVec 32) :
    lowHalf (x &&& 0xFFFFFFFF#64 ||| val.setWidth 64 <<< 32) = lowHalf x := by
  apply eq_of_getLsbD_eq
  intro i hi
  simp only [lowHalf, getLsbD_extractLsb', getLsbD_or, getLsbD_and, mask32_bit]
  simp [hi]

theorem get_set_of_ne (regs : QueueRegs) (val : BitVec 32) (h : g ≠ f) :
    (regs.set f val).get g = regs.get g := by
  cases f with
  | rdbal =>
    cases g with
    | rdbah => exact congrArg some (highHalf_append _ _)
    | rdbal => exact absurd rfl h
    | _ => rfl
  | rdbah =>
    cases g with
    | rdbal => exact congrArg some (lowHalf_append _ _)
    | rdbah => exact absurd rfl h
    | _ => rfl
  | tdbal =>
    cases g with
    | tdbah => exact congrArg some (highHalf_append _ _)
    | tdbal => exact absurd rfl h
    | _ => rfl
  | tdbah =>
    cases g with
    | tdbal => exact congrArg some (lowHalf_append _ _)
    | tdbah => exact absurd rfl h
    | _ => rfl
  | tdwbal =>
    cases g with
    | tdwbah => exact congrArg some (highHalf_keep _ _)
    | tdwbal => exact absurd rfl h
    | _ => rfl
  | tdwbah =>
    cases g with
    | tdwbal => exact congrArg some (lowHalf_keep _ _)
    | tdwbah => exact absurd rfl h
    | _ => rfl
  | _ => cases g <;> first | exact absurd rfl h | rfl

/-- Only the register of family `f` in queue `q` differs. -/
structure Framed (f : Family) (q : Nat) (d e : Device ρ τ ν) : Prop where
  queues : ∀ r, r ≠ q → e.queues r = d.queues r
  registers : ∀ g, g ≠ f → (e.queues q).regs.get g = (d.queues q).regs.get g

theorem framed_of_target {d e : Device ρ τ ν} {daddr : Nat} {data : List UInt8}
    (htarget : target .write d.numQueues daddr = .queue f q) (h : d.write ops daddr data = .ok e) :
    Framed f q d e := by
  obtain ⟨_, -, h⟩ := bind_eq_ok.mp h
  rw [htarget] at h
  obtain ⟨b, hb, rfl⟩ := map_eq_ok.mp h
  refine ⟨fun r hr => Function.update_of_ne hr _ _, fun g hg => ?_⟩
  change (Function.update d.queues q b q).regs.get g = _
  rw [Function.update_self, write_regs hb]
  exact get_set_of_ne _ _ hg

def Isolated (ops : Ops ρ τ ν) (d : Device ρ τ ν) (access : Access) (f : Family) (q : Nat) :
    Prop :=
  target access d.numQueues (f.addr q) = .queue f q ∧
    (access = .write → ∀ (data : List UInt8) (e : Device ρ τ ν),
      d.write ops (f.addr q) data = .ok e → Framed f q d e)

theorem queue_registers_isolated (ops : Ops ρ τ ν) (d : Device ρ τ ν)
    (hn : d.numQueues ≤ maxQueueSize) (access : Access) (f : Family) (hq : q < d.numQueues) :
    Isolated ops d access f q ↔ Decoded access f q d.numQueues := by
  rw [← target_iff_decoded hq hn]
  constructor
  · exact fun h => h.1
  · rintro htarget
    refine ⟨htarget, ?_⟩
    rintro rfl data e he
    exact framed_of_target htarget he

def quietOps : Ops Unit Unit Unit where
  rxAreaChanged := .ok
  rxFetchDescriptors _ := .ok
  txAreaChanged := .ok
  txFetchDescriptors _ := .ok
  completionWriteback _ _ := id
  writeM2funcPacket _ := .ok
  writeFixed _ _ := .ok

def zeroRegs : QueueRegs := ⟨0, 0, 0, 0, 0, 0, 0, 0, 0, 0, 0, 0, 0⟩

def eightQueues : Device Unit Unit Unit where
  numQueues := 8
  commType := .m2func
  enableDTA := false
  running := true
  queues _ := ⟨zeroRegs, (), (), ()⟩

theorem queue_registers_isolated_tail : Isolated quietOps eightQueues .write .rdt 5 :=
  (queue_registers_isolated quietOps eightQueues (by decide) .write .rdt (by decide)).mpr trivial

/-- A write to the packet address of queue 4 sets the base address register of queue 5. -/
theorem packet_address_hits_next_queue :
    ¬ Isolated quietOps eightQueues .write .rxM2func 4 ∧
      okAnd (eightQueues.write quietOps (Family.rxM2func.addr 4) [0x10, 0, 0, 0])
        (fun e => (e.queues 5).regs.rdba = 0x10) := by
  refine ⟨?_, by decide +kernel⟩
  rintro ⟨htarget, -⟩
  rcases (target_iff_decoded (by decide) (by decide)).mp htarget with h | h <;>
    exact absurd h (by decide)

end Gem5.IGbE.Registers
