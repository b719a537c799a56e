import Gem5.Base.AddrRange
import Gem5.Shared.Positions

/-!
# Interleaving bits

Removing the lowest bit of each mask from an address and adding it again. Both loops are
described by where each bit of the result comes from; the bits that are added are then
found from the parities.
-/

namespace Gem5.Base.AddrRange

open Nat BitVec List

open Positions

section Loops

variable {a b : BitVec 64} {i j : Nat} {ps : List Nat}

theorem getLsbD_removeStep {p : Nat} (hi : i ≤ p) (hp : p < 64) :
    (if 0 < p then insertBits (a >>> 1) ((((p : Int) - i - 1) % 2 ^ 32).toNat) 0 a
      else a >>> 1).getLsbD j = a.getLsbD (skip (p - i) j) := by
  by_cases hj : j < 64
  · split
    · have hfirst : ((((p : Int) - i - 1) % 2 ^ 32).toNat + 1) % 2 ^ 32 = p - i := by omega
      rw [getLsbD_insertBits hj, hfirst, getLsbD_ushiftRight, Nat.sub_zero, add_comm 1,
        skip]
      by_cases hlow : j < p - i
      · rw [if_pos ⟨zero_le j, hlow⟩, if_pos hlow]
      · rw [if_neg fun h => hlow h.2, if_neg hlow]
    · rw [getLsbD_ushiftRight, add_comm 1, skip, if_neg (by omega)]
  · have hskip : j ≤ skip (p - i) j := by
      unfold skip
      split <;> omega
    rw [getLsbD_of_ge _ _ (by omega), getLsbD_of_ge _ _ (by omega)]

theorem getLsbD_removeLoop (hps : ps.Pairwise (· < ·)) (hi : ∀ p ∈ ps, i ≤ p)
    (hlt : ∀ p ∈ ps, p < 64) : (removeLoop i ps a).getLsbD j = a.getLsbD (gatherFrom i ps j) := by
  induction ps generalizing i a with
  | nil => rfl
  | cons p ps ih =>
    obtain ⟨hp, hps⟩ := pairwise_cons.mp hps
    have hpi := hi p mem_cons_self
    have hnext : ∀ q ∈ ps, i + 1 ≤ q := fun q hq => by
      have := hp q hq
      omega
    rw [removeLoop, ih hps hnext fun q hq => hlt q (mem_cons_of_mem p hq),
      getLsbD_removeStep hpi (hlt p mem_cons_self), gatherFrom]

theorem getLsbD_addStep {p : Nat} (hp : p < 64) (hj : j < 64) (hne : j ≠ p) :
    (if 0 < p then insertBits (b <<< 1) (p - 1) 0 b else b <<< 1).getLsbD j =
      b.getLsbD (unskip p j) := by
  have hshift : p < j → (b <<< 1).getLsbD j = b.getLsbD (j - 1) := by
    intro hpj
    rw [getLsbD_shiftLeft, decide_eq_true hj, decide_eq_false (by omega)]
    rfl
  split
  · have hfirst : (p - 1 + 1) % 2 ^ 32 = p := by omega
    rw [getLsbD_insertBits hj, hfirst, Nat.sub_zero, unskip]
    by_cases hlow : j < p
    · rw [if_pos ⟨zero_le j, hlow⟩, if_pos hlow]
    · rw [if_neg fun h => hlow h.2, if_neg hlow, hshift (by omega)]
  · rw [hshift (by omega), unskip, if_neg (by omega)]

theorem scatter_le : scatter ps j ≤ j := by
  induction ps with
  | nil => exact le_rfl
  | cons p ps ih =>
    have hstep : unskip p (scatter ps j) ≤ scatter ps j := by
      unfold unskip
      split <;> omega
    exact hstep.trans ih

theorem getLsbD_addLoop (hps : ps.Pairwise (· < ·)) (hlt : ∀ p ∈ ps, p < 64) (hj : j < 64)
    (hmem : j ∉ ps) : (addLoop ps b).getLsbD j = b.getLsbD (scatter ps j) := by
  induction ps generalizing b with
  | nil => rfl
  | cons p ps ih =>
    obtain ⟨hp, hps⟩ := pairwise_cons.mp hps
    obtain ⟨hjp, hj'⟩ := not_or.mp (mem_cons.not.mp hmem)
    have hne := (gather_scatter hps hj').2 p hp hjp
    have hle : scatter ps j ≤ j := scatter_le
    rw [addLoop, ih hps (fun q hq => hlt q (mem_cons_of_mem p hq)) hj',
      getLsbD_addStep (hlt p mem_cons_self) (by omega) hne, scatter]

end Loops

section Select

variable {intlvMatch : BitVec 8} {ms : List (BitVec 64)} {a t m : BitVec 64} {i k : Nat}

theorem getLsbD_ctz64_other {m n : BitVec 64} (hn : n ≠ 0) (h : m &&& n = 0) :
    m.getLsbD (ctz64 n) = false := by
  have hbit := congrArg (fun x : BitVec 64 => x.getLsbD (ctz64 n)) h
  rw [getLsbD_and, getLsbD_ctz64 hn, Bool.and_true] at hbit
  exact hbit.trans getLsbD_zero

theorem ctz64_ne {m n : BitVec 64} (hm : m ≠ 0) (hn : n ≠ 0) (h : m &&& n = 0) :
    ctz64 m ≠ ctz64 n := by
  intro heq
  have hbit := getLsbD_ctz64_other hn h
  rw [← heq, getLsbD_ctz64 hm] at hbit
  cases hbit

theorem selectLoop_returns (h : ∀ m ∈ ms, ctz64 m < 32) :
    ∃ t, selectLoop intlvMatch i ms a = some t := by
  induction ms generalizing i a with
  | nil => exact ⟨a, rfl⟩
  | cons m ms ih =>
    rw [selectLoop, notBit, if_pos (h m mem_cons_self)]
    exact ih fun n hn => h n (mem_cons_of_mem m hn)

theorem lt_of_selectLoop (h : selectLoop intlvMatch i ms a = some t) : ∀ m ∈ ms, ctz64 m < 32 := by
  induction ms generalizing i a with
  | nil =>
    intro m hm
    cases hm
  | cons n ms ih =>
    rw [selectLoop, notBit] at h
    split at h
    · rename_i hlt
      intro m hm
      rcases mem_cons.mp hm with rfl | hm
      · exact hlt
      · exact ih h m hm
    · cases h

theorem testBit_mod_two {n j : Nat} : (n % 2).testBit j = (decide (j = 0) && n.testBit j) := by
  have hpow := testBit_mod_two_pow n 1 j
  rw [hpow]
  congr 1
  exact decide_eq_decide.mpr lt_one_iff

theorem intlvBit_xor {n : Nat} : (intlvBit intlvMatch i ^^^ BitVec.ofNat 64 n).getLsbD 0 =
    (intlvMatch.toNat.testBit i ^^ n.testBit 0) := by
  have hbit : ((intlvMatch.toNat >>> i) % 2).testBit 0 = intlvMatch.toNat.testBit i := by
    rw [testBit_mod_two]
    rfl
  rw [getLsbD_xor, intlvBit, getLsbD_ofNat, getLsbD_ofNat, hbit]
  rfl

theorem selectLoop_spec (hnz : ∀ m ∈ ms, m ≠ 0) (hdis : ms.Pairwise fun m n => m &&& n = 0)
    (h : selectLoop intlvMatch i ms a = some t) :
    (∀ j < 64, (∀ m ∈ ms, ctz64 m ≠ j) → t.getLsbD j = a.getLsbD j) ∧
      ∀ k m, ms[k]? = some m → ∃ rest, notBit (ctz64 m) = some rest ∧ t.getLsbD (ctz64 m) =
          (intlvMatch.toNat.testBit (i + k) ^^ (popCount (a &&& m &&& rest)).testBit 0) := by
  induction ms generalizing i a with
  | nil =>
    obtain rfl := Option.some.inj h
    exact ⟨fun _ _ _ => rfl, fun k m hm => by cases hm⟩
  | cons n ms ih =>
    obtain ⟨hn, hdis⟩ := pairwise_cons.mp hdis
    have hnzn := hnz n mem_cons_self
    have hlt := ctz64_lt hnzn
    obtain ⟨rest, hrest, h⟩ := Option.bind_eq_some_iff.mp h
    obtain ⟨houter, hinner⟩ := ih (fun m hm => hnz m (mem_cons_of_mem n hm)) hdis h
    constructor
    · intro j hj hne
      rw [houter j hj fun m hm => hne m (mem_cons_of_mem n hm), getLsbD_insertBit hj hlt,
        if_neg (Ne.symm (hne n mem_cons_self))]
    · intro k m hm
      cases k with
      | zero =>
        obtain rfl := Option.some.inj hm
        have hapart : ∀ m ∈ ms, ctz64 m ≠ ctz64 n := fun m hm =>
          Ne.symm (ctz64_ne hnzn (hnz m (mem_cons_of_mem n hm)) (hn m hm))
        refine ⟨rest, hrest, ?_⟩
        rw [houter _ hlt hapart, getLsbD_insertBit hlt hlt, if_pos rfl, intlvBit_xor, add_zero]
      | succ k =>
        obtain ⟨rest', hrest', hbit⟩ := hinner k m hm
        have hmem : m ∈ ms := mem_of_getElem? (i := k) hm
        -- the bit of `n` that has changed is not in `m`
        have hother : m.getLsbD (ctz64 n) = false := by
          apply getLsbD_ctz64_other hnzn
          rw [BitVec.and_comm]
          exact hn m hmem
        have hsame : ∀ x, insertBits a (ctz64 n) (ctz64 n) x &&& m = a &&& m := by
          intro x
          apply eq_of_getLsbD_eq
          intro j hj
          rw [getLsbD_and, getLsbD_and, getLsbD_insertBit hj hlt]
          split
          · rename_i heq
            rw [heq, hother, Bool.and_false, Bool.and_false]
          · rfl
        refine ⟨rest', hrest', ?_⟩
        rw [hbit, hsame, add_assoc, add_comm 1]

theorem testBit_selFrom {sel : Nat} : (selFrom a i ms sel).testBit k =
    (sel.testBit k ||
      (decide (i ≤ k) && (ms[k - i]?).any fun m => (popCount (a &&& m)).testBit 0)) := by
  induction ms generalizing i sel with
  | nil => simp [selFrom]
  | cons m ms ih =>
    rw [selFrom, ih, testBit_or, testBit_shiftLeft, testBit_mod_two]
    rcases Nat.lt_trichotomy k i with hlt | rfl | hgt
    · have hnot : ¬ i ≤ k := by omega
      have hnext : ¬ i + 1 ≤ k := by omega
      simp [hnot, hnext]
    · have hnext : ¬ k + 1 ≤ k := by omega
      simp [hnext]
    · obtain ⟨d, rfl⟩ : ∃ d, k = i + 1 + d := ⟨k - (i + 1), by omega⟩
      have hsub : i + 1 + d - i = d + 1 := by omega
      have hle : i ≤ i + 1 + d := by omega
      simp [hsub, hle]

theorem sel_eq_iff {r : AddrRange} (hr : r.masks ≠ []) : r.sel a = r.intlvMatch.toNat ↔
    ∀ k m, r.masks[k]? = some m →
      (popCount (a &&& m)).testBit 0 = r.intlvMatch.toNat.testBit k := by
  constructor
  · intro h k m hm
    rw [← h, sel, testBit_selFrom, Nat.sub_zero, hm]
    simp
  · intro h
    apply eq_of_testBit_eq
    intro k
    rw [sel, testBit_selFrom]
    cases hm : r.masks[k]? with
    | some m =>
      rw [← h k m hm]
      simp
    | none =>
      have hle : r.masks.length ≤ k := List.getElem?_eq_none_iff.mp hm
      have hfits := r.fits hr
      have hpow : 2 ^ r.masks.length ≤ 2 ^ k := Nat.pow_le_pow_right (by decide) hle
      have hzero : r.intlvMatch.toNat.testBit k = false :=
        testBit_lt_two_pow (lt_of_lt_of_le hfits hpow)
      simp [hzero]

end Select

section RoundTrip

variable {r : AddrRange} {a b t m : BitVec 64}

def RoundTrips (r : AddrRange) : Prop :=
  (∀ a, r.contains a = true → r.addIntlvBits (r.removeIntlvBits a) = some a) ∧
    ∀ b : BitVec 64, (∀ j, 64 - r.masks.length ≤ j → b.getLsbD j = false) →
      ∃ a, r.addIntlvBits b = some a ∧ r.removeIntlvBits a = b ∧ r.sel a = r.intlvMatch.toNat

variable (hr : r.masks ≠ []) (hnz : ∀ m ∈ r.masks, m ≠ 0)
  (hdis : r.masks.Pairwise fun m n => m &&& n = 0)

include hr in
theorem interleaved_of_ne_nil : r.interleaved = true := by
  unfold interleaved
  cases hm : r.masks with
  | nil => exact absurd hm hr
  | cons m ms => rfl

theorem mem_masksLsb {p : Nat} : p ∈ r.masksLsb ↔ ∃ m ∈ r.masks, ctz64 m = p := by
  rw [masksLsb, (perm_insertionSort _ _).mem_iff, mem_map]

theorem masksLsb_length : r.masksLsb.length = r.masks.length := by
  rw [masksLsb, (perm_insertionSort _ _).length_eq, length_map]

include hnz in
theorem masksLsb_lt : ∀ p ∈ r.masksLsb, p < 64 := by
  intro p hp
  obtain ⟨m, hm, rfl⟩ := mem_masksLsb.mp hp
  exact ctz64_lt (hnz m hm)

include hnz hdis in
theorem masksLsb_ascending : r.masksLsb.Pairwise (· < ·) := by
  have hsorted : r.masksLsb.Pairwise (· ≤ ·) := pairwise_insertionSort _ _
  have hnodup : r.masksLsb.Nodup := by
    refine (perm_insertionSort _ _).nodup_iff.mpr (pairwise_map.mpr ?_)
    refine (pairwise_iff_forall_sublist.mpr ?_)
    intro m n hsub
    have hm : m ∈ r.masks := hsub.subset mem_cons_self
    have hn : n ∈ r.masks := hsub.subset (mem_cons_of_mem m mem_cons_self)
    have hapart := pairwise_iff_forall_sublist.mp hdis hsub
    exact ctz64_ne (hnz m hm) (hnz n hn) hapart
  refine (hsorted.and hnodup).imp ?_
  intro p q hpq
  exact Nat.lt_of_le_of_ne hpq.1 hpq.2

include hr hnz hdis in
theorem getLsbD_removeIntlvBits {j : Nat} :
    (r.removeIntlvBits a).getLsbD j = a.getLsbD (gather r.masksLsb j) := by
  have hps := masksLsb_ascending hnz hdis
  rw [removeIntlvBits, if_pos (interleaved_of_ne_nil hr),
    getLsbD_removeLoop hps (fun p _ => zero_le p) (masksLsb_lt hnz), gatherFrom_zero hps]

include hr hnz hdis in
theorem getLsbD_addIntlvBits {j : Nat} (h : r.addIntlvBits b = some a) (hj : j < 64)
    (hmem : j ∉ r.masksLsb) : a.getLsbD j = b.getLsbD (scatter r.masksLsb j) := by
  rw [addIntlvBits, if_pos (interleaved_of_ne_nil hr)] at h
  have hne : ∀ m ∈ r.masks, ctz64 m ≠ j := fun m hm heq => hmem (mem_masksLsb.mpr ⟨m, hm, heq⟩)
  rw [(selectLoop_spec hnz hdis h).1 j hj hne,
    getLsbD_addLoop (masksLsb_ascending hnz hdis) (masksLsb_lt hnz) hj hmem]

include hr hnz hdis in
theorem removeIntlvBits_addIntlvBits (h : r.addIntlvBits b = some a)
    (hb : ∀ j, 64 - r.masks.length ≤ j → b.getLsbD j = false) : r.removeIntlvBits a = b := by
  have hps := masksLsb_ascending hnz hdis
  apply eq_of_getLsbD_eq
  intro j _
  rw [getLsbD_removeIntlvBits hr hnz hdis]
  by_cases hlt : gather r.masksLsb j < 64
  · rw [getLsbD_addIntlvBits hr hnz hdis h hlt (gather_notMem hps), scatter_gather]
  · have hle : gather r.masksLsb j ≤ j + r.masksLsb.length := gather_le
    rw [masksLsb_length] at hle
    rw [getLsbD_of_ge _ _ (by omega), hb j (by omega)]

theorem notMem_masksLsb {j : Nat} (hnz : ∀ m ∈ r.masks, m ≠ 0)
    (hdis : r.masks.Pairwise fun m n => m &&& n = 0) (hm : m ∈ r.masks)
    (hbit : m.getLsbD j = true) (hj : j ≠ ctz64 m) : j ∉ r.masksLsb := by
  intro hmem
  obtain ⟨n, hn, rfl⟩ := mem_masksLsb.mp hmem
  have hne : m ≠ n := fun h => hj (h ▸ rfl)
  have : Std.Symm fun x y : BitVec 64 => x &&& y = 0 := ⟨fun x y h => by rwa [BitVec.and_comm]⟩
  have hapart : m &&& n = 0 := hdis.forall hm hn hne
  rw [getLsbD_ctz64_other (hnz n hn) hapart] at hbit
  cases hbit

theorem testBit_zero_add {x : Nat} {c : Bool} : (x + c.toNat).testBit 0 = (c ^^ x.testBit 0) := by
  cases c
  · simp
  · rcases mod_two_eq_zero_or_one x with hx | hx
    · have hodd : (x + 1) % 2 = 1 := by omega
      simp [hx, hodd]
    · have heven : (x + 1) % 2 = 0 := by omega
      simp [hx, heven]

include hr hnz hdis in
/-- An address is known from its selector and the bits that are not lowest bits. -/
theorem eq_of_sel (ha : r.sel a = r.intlvMatch.toNat) (ht : r.sel t = r.intlvMatch.toNat)
    (hsame : ∀ j < 64, j ∉ r.masksLsb → a.getLsbD j = t.getLsbD j) : a = t := by
  apply eq_of_getLsbD_eq
  intro j hj
  by_cases hmem : j ∈ r.masksLsb
  · obtain ⟨m, hm, rfl⟩ := mem_masksLsb.mp hmem
    obtain ⟨k, hk⟩ := List.getElem?_of_mem hm
    -- the common part of the two words, without the lowest bit
    let common := a &&& m &&& ~~~BitVec.twoPow 64 (ctz64 m)
    have hcommon : ∀ i < 64, i ≠ ctz64 m → common.getLsbD i = (a.getLsbD i && m.getLsbD i) := by
      intro i hi hne
      simp [common, hi, hne]
    have hzero : common.getLsbD (ctz64 m) = false := by
      simp [common]
    have hcount : ∀ x : BitVec 64, (∀ i < 64, i ∉ r.masksLsb → a.getLsbD i = x.getLsbD i) →
        popCount (x &&& m) = popCount common + (x.getLsbD (ctz64 m)).toNat := by
      intro x hx
      have hpop := popCount_eq (a := x &&& m) hj (fun i hi hne => ?_) hzero
      · rwa [getLsbD_and, getLsbD_ctz64 (hnz m hm), Bool.and_true] at hpop
      · rw [hcommon i hi hne, getLsbD_and]
        cases hbit : m.getLsbD i with
        | false => rw [Bool.and_false, Bool.and_false]
        | true => rw [hx i hi (notMem_masksLsb hnz hdis hm hbit hne)]
    have hpa := (sel_eq_iff hr).mp ha k m hk
    have hpt := (sel_eq_iff hr).mp ht k m hk
    rw [hcount a fun _ _ _ => rfl, testBit_zero_add] at hpa
    rw [hcount t hsame, testBit_zero_add] at hpt
    exact Bool.xor_left_inj.mp (hpa.trans hpt.symm)
  · exact hsame j hj hmem

def Clearable (m : BitVec 64) : Prop := ctz64 m < 31 ∨ m = 0x80000000#64

theorem ctz64_bit31 : ctz64 0x80000000#64 = 31 := by decide +kernel

theorem getLsbD_bit31 {j : Nat} : (0x80000000#64).getLsbD j = decide (j = 31) := by
  have hpow : 0x80000000#64 = BitVec.twoPow 64 31 := by decide
  rw [hpow]
  simp [eq_comm]

theorem getLsbD_notBit {p j : Nat} (hj : j < 64) :
    ((~~~(1#32 <<< p)).signExtend 64).getLsbD j =
      if j < 32 then decide (j ≠ p) else decide (p ≠ 31) := by
  have hbit : ∀ i < 32, (~~~(1#32 <<< p)).getLsbD i = decide (i ≠ p) := by
    intro i hi
    rw [← twoPow_eq]
    simp [hi, eq_comm]
  rw [getLsbD_signExtend, decide_eq_true hj]
  split
  · rename_i hlow
    exact hbit j hlow
  · rw [msb_eq_getLsbD_last, hbit 31 (by decide)]
    exact decide_eq_decide.mpr ne_comm

theorem notBit_of_clearable (h : Clearable m) : ∃ rest, notBit (ctz64 m) = some rest ∧
    ∀ j < 64, m.getLsbD j = true → rest.getLsbD j = decide (j ≠ ctz64 m) := by
  rcases h with hlt | rfl
  · refine ⟨_, if_pos (by omega), ?_⟩
    intro j hj _
    rw [getLsbD_notBit hj]
    split
    · rfl
    · rw [decide_eq_true (by omega), decide_eq_true (by omega)]
  · rw [ctz64_bit31]
    refine ⟨_, rfl, ?_⟩
    intro j hj hbit
    rw [getLsbD_bit31] at hbit
    rw [of_decide_eq_true hbit]
    rfl

include hr hnz hdis in
/-- With clearable masks every word gets the selector of the range. -/
theorem sel_addIntlvBits (hclear : ∀ m ∈ r.masks, Clearable m) (h : r.addIntlvBits b = some a) :
    r.sel a = r.intlvMatch.toNat := by
  have hselect := h
  rw [addIntlvBits, if_pos (interleaved_of_ne_nil hr)] at hselect
  obtain ⟨houter, hinner⟩ := selectLoop_spec hnz hdis hselect
  apply (sel_eq_iff hr).mpr
  intro k m hk
  have hm := mem_of_getElem? hk
  obtain ⟨rest, hrest, hbit⟩ := hinner k m hk
  obtain ⟨rest', hrest', hgood⟩ := notBit_of_clearable (hclear m hm)
  obtain rfl := Option.mem_unique hrest hrest'
  have hlt := ctz64_lt (hnz m hm)
  have hpop : popCount (a &&& m) = popCount (addLoop r.masksLsb b &&& m &&& rest) +
      ((a &&& m).getLsbD (ctz64 m)).toNat := by
    apply popCount_eq hlt
    · intro i hi hne
      rw [getLsbD_and, getLsbD_and, getLsbD_and]
      cases hmi : m.getLsbD i with
      | false => simp
      | true =>
        have hnot := notMem_masksLsb hnz hdis hm hmi hne
        rw [hgood i hi hmi, decide_eq_true hne, Bool.and_true, Bool.and_true, Bool.and_true]
        exact houter i hi fun n hn heq => hnot (mem_masksLsb.mpr ⟨n, hn, heq⟩)
    · rw [getLsbD_and, hgood _ hlt (getLsbD_ctz64 (hnz m hm))]
      simp
  rw [getLsbD_and, getLsbD_ctz64 (hnz m hm), Bool.and_true, hbit, zero_add] at hpop
  rw [hpop, testBit_zero_add, Bool.xor_assoc, Bool.xor_self, Bool.xor_false]

include hr hnz hdis in
theorem roundTrips_of_clearable (hclear : ∀ m ∈ r.masks, Clearable m) : r.RoundTrips := by
  have hreturns : ∀ b, ∃ a, r.addIntlvBits b = some a := by
    intro b
    rw [addIntlvBits, if_pos (interleaved_of_ne_nil hr)]
    apply selectLoop_returns
    intro m hm
    rcases hclear m hm with hlt | rfl
    · omega
    · rw [ctz64_bit31]
      decide
  constructor
  · intro a ha
    obtain ⟨t, ht⟩ := hreturns (r.removeIntlvBits a)
    have hsel : r.sel a = r.intlvMatch.toNat := by
      rw [contains, Bool.and_eq_true, beq_iff_eq] at ha
      exact ha.2
    rw [ht, eq_of_sel hr hnz hdis hsel (sel_addIntlvBits hr hnz hdis hclear ht) ?_]
    intro j hj hmem
    rw [getLsbD_addIntlvBits hr hnz hdis ht hj hmem, getLsbD_removeIntlvBits hr hnz hdis,
      (gather_scatter (masksLsb_ascending hnz hdis) hmem).1]
  · intro b hb
    obtain ⟨a, ha⟩ := hreturns b
    exact ⟨a, ha, removeIntlvBits_addIntlvBits hr hnz hdis ha hb,
      sel_addIntlvBits hr hnz hdis hclear ha⟩

include hr hnz hdis in
/-- If the lowest bit of a mask is bit 31, the bits above it are not counted. -/
theorem sel_ne_of_bit31 {q : Nat} (hm : m ∈ r.masks) (hlow : ctz64 m = 31) (hq : m.getLsbD q = true)
    (hne : q ≠ 31) (h : r.addIntlvBits (BitVec.twoPow 64 (scatter r.masksLsb q)) = some a) :
    r.sel a ≠ r.intlvMatch.toNat := by
  have hps := masksLsb_ascending hnz hdis
  have hselect := h
  rw [addIntlvBits, if_pos (interleaved_of_ne_nil hr)] at hselect
  obtain ⟨k, hk⟩ := List.getElem?_of_mem hm
  obtain ⟨rest, hrest, hbit⟩ := (selectLoop_spec hnz hdis hselect).2 k m hk
  rw [hlow] at hrest hbit
  obtain rfl := Option.some.inj (hrest.symm.trans (if_pos (by decide)))
  have hmask : ∀ x : BitVec 64, x &&& m &&& (~~~(1#32 <<< 31)).signExtend 64 = 0 := by
    intro x
    apply eq_of_getLsbD_eq
    intro j hj
    rw [getLsbD_and, getLsbD_and, getLsbD_notBit hj]
    by_cases hj31 : j < 31
    · rw [getLsbD_of_lt_ctz64 (by omega : j < ctz64 m)]
      simp
    · split
      · have heq : j = 31 := by omega
        simp [heq]
      · simp
  have hzero : popCount 0 = 0 := by simp [popCount]
  rw [hmask, hzero, zero_testBit, Bool.xor_false, zero_add] at hbit
  have hq64 : q < 64 := by
    by_contra hge
    rw [getLsbD_of_ge _ _ (by omega)] at hq
    cases hq
  have hsingle : popCount (BitVec.twoPow 64 q) = 1 := by
    rw [popCount_eq (b := 0) hq64 (fun i _ hne => by simp [Ne.symm hne]) getLsbD_zero, hzero]
    simp [hq64]
  have hpop :
      popCount (a &&& m) = popCount (BitVec.twoPow 64 q) + ((a &&& m).getLsbD 31).toNat := by
    apply popCount_eq (by decide)
    · intro i hi hi31
      rw [getLsbD_and, getLsbD_twoPow, decide_eq_true hq64, Bool.true_and]
      cases hmi : m.getLsbD i with
      | false =>
        have hqi : q ≠ i := fun heq => by
          rw [← heq, hq] at hmi
          cases hmi
        simp [hqi]
      | true =>
        have hnot := notMem_masksLsb hnz hdis hm hmi (by omega)
        have hqnot := notMem_masksLsb hnz hdis hm hq (by omega)
        have hinj : scatter r.masksLsb q = scatter r.masksLsb i ↔ q = i := by
          refine ⟨fun heq => ?_, fun heq => heq ▸ rfl⟩
          rw [← (gather_scatter hps hqnot).1, heq, (gather_scatter hps hnot).1]
        have hle : scatter r.masksLsb q ≤ q := scatter_le
        rw [getLsbD_addIntlvBits hr hnz hdis h hi hnot, getLsbD_twoPow,
          decide_eq_true (by omega : scatter r.masksLsb q < 64), Bool.true_and, Bool.and_true]
        exact decide_eq_decide.mpr hinj
    · rw [getLsbD_twoPow, decide_eq_false hne, Bool.and_false]
  intro hsel
  have hparity := (sel_eq_iff hr).mp hsel k m hk
  have hm31 : m.getLsbD 31 = true := hlow ▸ getLsbD_ctz64 (hnz m hm)
  rw [hpop, hsingle, getLsbD_and, hm31, Bool.and_true, hbit, testBit_zero_add] at hparity
  revert hparity
  cases r.intlvMatch.toNat.testBit k <;> decide

/-- An interleaved range round trips exactly if the lowest bit of each mask is below bit
31, or is bit 31 alone. -/
theorem intlv_round_trip_iff (r : AddrRange) (hr : r.masks ≠ []) (hnz : ∀ m ∈ r.masks, m ≠ 0)
    (hdis : r.masks.Pairwise fun m n => m &&& n = 0) :
    r.RoundTrips ↔ ∀ m ∈ r.masks, Clearable m := by
  refine ⟨fun h m hm => ?_, roundTrips_of_clearable hr hnz hdis⟩
  have hps := masksLsb_ascending hnz hdis
  obtain ⟨t, ht, _⟩ := h.2 0 fun _ _ => getLsbD_zero
  rw [addIntlvBits, if_pos (interleaved_of_ne_nil hr)] at ht
  have hlt := lt_of_selectLoop ht m hm
  by_contra hbad
  obtain ⟨hge, hother⟩ := not_or.mp hbad
  have hlow : ctz64 m = 31 := by omega
  obtain ⟨q, hq, hne⟩ : ∃ q, m.getLsbD q = true ∧ q ≠ 31 := by
    by_contra hnone
    apply hother
    apply eq_of_getLsbD_eq
    intro j _
    rw [getLsbD_bit31]
    by_cases hj : j = 31
    · rw [hj, ← hlow, getLsbD_ctz64 (hnz m hm)]
      simp
    · rw [decide_eq_false hj]
      exact Bool.eq_false_iff.mpr fun hbit => hnone ⟨j, hbit, hj⟩
  have hq64 : q < 64 := by
    by_contra hge
    rw [getLsbD_of_ge _ _ (by omega)] at hq
    cases hq
  have hqnot := notMem_masksLsb hnz hdis hm hq (by omega)
  -- a word with the bit that becomes bit `q`
  have htop : ∀ j, 64 - r.masks.length ≤ j →
      (BitVec.twoPow 64 (scatter r.masksLsb q)).getLsbD j = false := by
    intro j hj
    rw [getLsbD_twoPow, Bool.and_eq_false_iff]
    right
    apply decide_eq_false
    rintro rfl
    have hover := gather_of_le (j := scatter r.masksLsb q) hps (masksLsb_lt hnz)
      (by rw [masksLsb_length]; omega)
    rw [(gather_scatter hps hqnot).1, masksLsb_length] at hover
    omega
  obtain ⟨a, ha, _, hsel⟩ := h.2 _ htop
  exact sel_ne_of_bit31 hr hnz hdis hm hlow hq hne ha hsel

def hashedRange (masks : List (BitVec 64)) (h : masks.length = 2) : AddrRange where
  start := 0
  endAddr := 0x100000000000#64
  masks := masks
  intlvMatch := 2
  fits := fun _ => by
    rw [h]
    decide

theorem forall_mem_pair {P : BitVec 64 → Prop} {m n : BitVec 64} (hm : P m) (hn : P n) :
    ∀ x ∈ [m, n], P x :=
  forall_mem_cons.mpr ⟨hm, forall_mem_singleton.mpr hn⟩

theorem intlv_round_trip_iff_hashed :
    (hashedRange [0x10040#64, 0x80#64] rfl).RoundTrips ∧
      ¬ (hashedRange [0x180000000#64, 0x80#64] rfl).RoundTrips := by
  constructor
  · apply (intlv_round_trip_iff _ (cons_ne_nil _ _) (forall_mem_pair (by decide) (by decide))
      (pairwise_pair.mpr (by decide))).mpr
    exact forall_mem_pair (.inl (by decide +kernel)) (.inl (by decide +kernel))
  · intro h
    have hall := (intlv_round_trip_iff _ (cons_ne_nil _ _)
      (forall_mem_pair (by decide) (by decide)) (pairwise_pair.mpr (by decide))).mp h
    have hlow : ¬ ctz64 0x180000000#64 < 31 := by decide +kernel
    rcases hall 0x180000000#64 mem_cons_self with hlt | heq
    · exact hlow hlt
    · revert heq
      decide

/-- Bit 32 of the address is lost when bit 31 is computed. -/
theorem intlv_bit31_mask :
    ∃ a, (hashedRange [0x180000000#64, 0x80#64] rfl).contains a = true ∧
      (hashedRange [0x180000000#64, 0x80#64] rfl).addIntlvBits
        ((hashedRange [0x180000000#64, 0x80#64] rfl).removeIntlvBits a) ≠ some a :=
  ⟨0x180000080#64, by decide +kernel⟩

end RoundTrip

end Gem5.Base.AddrRange
