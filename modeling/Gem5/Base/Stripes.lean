import Gem5.Base.Interleaving
import Mathlib.Data.Nat.Bitwise
import Mathlib.Data.List.Perm.Subperm

/-!
# The stripes of interleaved ranges

The ranges that share start, end and masks divide the addresses among them, and each numbers its
own from zero without gaps. The selector of an address fixes the lowest bits of the masks, so two
addresses of a range first differ in a bit that `removeIntlvBits` keeps.
-/

open Nat Bool BitVec List

namespace Gem5.Positions

variable {p i j : Nat} {ps : List Nat}

theorem skip_lt (h : i < j) : skip p i < skip p j := by
  unfold skip
  split_ifs <;> omega

theorem gather_lt (h : i < j) : gather ps i < gather ps j := by
  induction ps generalizing i j with
  | nil => exact h
  | cons p ps ih => exact ih (skip_lt h)

end Gem5.Positions

namespace Gem5.Base.AddrRange

open Positions

/-- The range with match value `k`, which the constructor takes as an 8-bit number. -/
def stripe (start endAddr : BitVec 64) (masks : List (BitVec 64)) (k : Fin (2 ^ masks.length)) :
    AddrRange where
  start := start
  endAddr := endAddr
  masks := masks
  intlvMatch := BitVec.ofNat 8 k
  fits := fun _ => by
    rw [BitVec.toNat_ofNat]
    exact lt_of_le_of_lt (Nat.mod_le _ _) k.isLt

structure Numbered (r : AddrRange) : Prop where
  inside : ∀ a, r.contains a = true → r.getOffset a < r.size
  mono : ∀ a b, r.contains a = true → r.contains b = true → a < b → r.getOffset a < r.getOffset b
  onto : ∀ o, o < r.size → ∃ a, r.contains a = true ∧ r.getOffset a = o

structure Partitions (start endAddr : BitVec 64) (masks : List (BitVec 64)) : Prop where
  one : ∀ a, start ≤ a → a < endAddr →
    ∃ k, (stripe start endAddr masks k).contains a = true ∧
      ∀ k', (stripe start endAddr masks k').contains a = true → k' = k
  numbered : ∀ k, (stripe start endAddr masks k).Numbered

variable {r : AddrRange} {a b x : BitVec 64}

section Parity

theorem eq_of_xor_eq_false {x y : Bool} (h : (x ^^ y) = false) : x = y := by
  revert x y
  decide

theorem exists_top_difference (h : a < b) : ∃ t, a.getLsbD t = false ∧ b.getLsbD t = true ∧
    ∀ j, t < j → a.getLsbD j = b.getLsbD j := by
  have hlt : a.toNat < b.toNat := h
  have hne : a.toNat ^^^ b.toNat ≠ 0 := fun hzero => by
    have heq := Nat.xor_eq_zero_iff.mp hzero
    omega
  obtain ⟨t, ht, habove⟩ := exists_most_significant_bit hne
  have hsame : ∀ j, t < j → a.getLsbD j = b.getLsbD j := by
    intro j hj
    have hbit := habove j hj
    rw [testBit_xor] at hbit
    exact eq_of_xor_eq_false hbit
  rw [testBit_xor] at ht
  change (a.getLsbD t ^^ b.getLsbD t) = true at ht
  cases ha : a.getLsbD t with
  | false =>
    rw [ha, false_xor] at ht
    exact ⟨t, ha, ht, hsame⟩
  | true =>
    rw [ha, true_xor, not_eq_true'] at ht
    have hgt := lt_of_testBit t ht ha fun j hj => (hsame j hj).symm
    omega

theorem top_notMem_masksLsb (hnz : ∀ m ∈ r.masks, m ≠ 0) {t : Nat} (hsel : r.sel a = r.sel b)
    (ha : a.getLsbD t = false) (hb : b.getLsbD t = true)
    (habove : ∀ j, t < j → a.getLsbD j = b.getLsbD j) : t ∉ r.masksLsb := by
  intro hmem
  obtain ⟨m, hm, rfl⟩ := mem_masksLsb.mp hmem
  obtain ⟨k, hk⟩ := List.getElem?_of_mem hm
  have hpop : popCount (b &&& m) = popCount (a &&& m) + ((b &&& m).getLsbD (ctz64 m)).toNat := by
    refine popCount_eq (ctz64_lt (hnz m hm)) (fun i _ hne => ?_) ?_
    · rw [getLsbD_and, getLsbD_and]
      rcases Nat.lt_or_gt_of_ne hne with hlow | hhigh
      · rw [getLsbD_of_lt_ctz64 hlow, Bool.and_false, Bool.and_false]
      · rw [habove i hhigh]
    · rw [getLsbD_and, ha, Bool.false_and]
  rw [getLsbD_and, hb, getLsbD_ctz64 (hnz m hm)] at hpop
  have hbits := congrArg (fun n => n.testBit k) hsel
  simp only [sel, testBit_selFrom, Nat.sub_zero, hk, Option.any_some, hpop] at hbits
  rw [testBit_zero_add] at hbits
  simp at hbits

theorem exists_parities : ∀ {ms : List (BitVec 64)}, (∀ m ∈ ms, m ≠ 0) →
    (ms.Pairwise fun m n => m &&& n = 0) → ∀ (c : BitVec 64) (v : Nat → Bool),
    ∃ a : BitVec 64, (∀ j < 64, (∀ m ∈ ms, ctz64 m ≠ j) → a.getLsbD j = c.getLsbD j) ∧
      ∀ k m, ms[k]? = some m → (popCount (a &&& m)).testBit 0 = v k := by
  intro ms
  induction ms with
  | nil =>
    intro _ _ c v
    exact ⟨c, fun _ _ _ => rfl, fun k m hm => by cases hm⟩
  | cons n ms ih =>
    intro hnz hdis c v
    rw [forall_mem_cons] at hnz
    obtain ⟨hn, hdis⟩ := pairwise_cons.mp hdis
    have hlt := ctz64_lt hnz.1
    obtain ⟨a, hkept, hpar⟩ := ih hnz.2 hdis c fun k => v (k + 1)
    -- the parity of the bits of `n` above its lowest one
    let other := popCount (insertBits a (ctz64 n) (ctz64 n) 0 &&& n)
    let bit : Bool := v 0 ^^ other.testBit 0
    let a' := insertBits a (ctz64 n) (ctz64 n) (BitVec.ofNat 64 bit.toNat)
    have hbit : ∀ i < 64, a'.getLsbD i = if i = ctz64 n then bit else a.getLsbD i := by
      intro i hi
      rw [getLsbD_insertBit hi hlt]
      congr 1
      cases bit <;> rfl
    refine ⟨a', fun j hj hne => ?_, fun k m hm => ?_⟩
    · rw [forall_mem_cons] at hne
      rw [hbit j hj, if_neg (Ne.symm hne.1), hkept j hj hne.2]
    · cases k with
      | zero =>
        obtain rfl := Option.some.inj hm
        have hpop : popCount (a' &&& n) = other + ((a' &&& n).getLsbD (ctz64 n)).toNat := by
          refine popCount_eq hlt (fun i hi hne => ?_) ?_
          · rw [getLsbD_and, getLsbD_and, hbit i hi, getLsbD_insertBit hi hlt,
              if_neg hne, if_neg hne]
          · rw [getLsbD_and, getLsbD_insertBit hlt hlt]
            simp
        rw [hpop, getLsbD_and, hbit _ hlt, if_pos rfl, getLsbD_ctz64 hnz.1, Bool.and_true,
          testBit_zero_add, Bool.xor_assoc, Bool.xor_self, Bool.xor_false]
      | succ k =>
        have hmem : m ∈ ms := mem_of_getElem? (i := k) hm
        have hother : m.getLsbD (ctz64 n) = false := by
          apply getLsbD_ctz64_other hnz.1
          rw [BitVec.and_comm]
          exact hn m hmem
        have hsame : a' &&& m = a &&& m := by
          apply eq_of_getLsbD_eq
          intro j hj
          rw [getLsbD_and, getLsbD_and, hbit j hj]
          split
          · rename_i heq
            rw [heq, hother, Bool.and_false, Bool.and_false]
          · rfl
        rw [hsame]
        exact hpar k m hm

theorem sel_lt (r : AddrRange) (a : BitVec 64) : r.sel a < 2 ^ r.masks.length := by
  apply lt_pow_two_of_testBit
  intro k hk
  rw [sel, testBit_selFrom, Nat.sub_zero, List.getElem?_eq_none hk]
  simp

end Parity

section Numbers

variable (hr : r.masks ≠ []) (hnz : ∀ m ∈ r.masks, m ≠ 0)
  (hdis : r.masks.Pairwise fun m n => m &&& n = 0)

include hr hnz hdis in
theorem removeIntlvBits_lt (hsel : r.sel a = r.sel b) (h : a < b) :
    r.removeIntlvBits a < r.removeIntlvBits b := by
  have hps := masksLsb_ascending hnz hdis
  obtain ⟨t, ha, hb, habove⟩ := exists_top_difference h
  have hback := (gather_scatter hps (top_notMem_masksLsb hnz hsel ha hb habove)).1
  apply lt_of_testBit (scatter r.masksLsb t)
  · change (r.removeIntlvBits a).getLsbD _ = false
    rw [getLsbD_removeIntlvBits hr hnz hdis, hback, ha]
  · change (r.removeIntlvBits b).getLsbD _ = true
    rw [getLsbD_removeIntlvBits hr hnz hdis, hback, hb]
  · intro j hj
    change (r.removeIntlvBits a).getLsbD _ = (r.removeIntlvBits b).getLsbD _
    rw [getLsbD_removeIntlvBits hr hnz hdis, getLsbD_removeIntlvBits hr hnz hdis]
    refine habove _ ?_
    rw [← hback]
    exact gather_lt hj

structure Top (r : AddrRange) (top kept : Nat) : Prop where
  mem : top ∈ r.masksLsb
  le : ∀ p ∈ r.masksLsb, p ≤ top
  kept : kept + r.masks.length = top + 1

include hr hnz hdis in
theorem exists_top : ∃ top kept, r.Top top kept := by
  have hne : r.masksLsb ≠ [] := by
    intro hnil
    have hlen := masksLsb_length (r := r)
    rw [hnil, length_nil] at hlen
    exact hr (eq_nil_of_length_eq_zero hlen.symm)
  obtain ⟨top, hmem, hle⟩ : ∃ top ∈ r.masksLsb, ∀ p ∈ r.masksLsb, p ≤ top := by
    refine ⟨r.masksLsb.getLast hne, getLast_mem hne, fun p hp => ?_⟩
    have hps := masksLsb_ascending hnz hdis
    rw [← dropLast_append_getLast hne] at hps hp
    rcases mem_append.mp hp with hfront | hlast
    · exact le_of_lt ((pairwise_append.mp hps).2.2 p hfront _ mem_cons_self)
    · rw [mem_singleton.mp hlast]
  have hcount : r.masks.length ≤ top + 1 := by
    have hnodup : r.masksLsb.Nodup := (masksLsb_ascending hnz hdis).imp ne_of_lt
    have hsub : r.masksLsb ⊆ List.range (top + 1) := fun p hp =>
      mem_range.mpr (lt_succ_of_le (hle p hp))
    have hlen := (hnodup.subperm hsub).length_le
    rwa [masksLsb_length, length_range] at hlen
  exact ⟨top, top + 1 - r.masks.length, hmem, hle, Nat.sub_add_cancel hcount⟩

include hr hnz hdis in
/-- Above the highest of the lowest bits nothing is removed. -/
theorem removeIntlvBits_div {top kept : Nat} (ht : r.Top top kept) (a : BitVec 64) :
    (r.removeIntlvBits a).toNat / 2 ^ kept = a.toNat / 2 ^ (top + 1) := by
  apply eq_of_testBit_eq
  intro j
  rw [testBit_div_two_pow, testBit_div_two_pow]
  change (r.removeIntlvBits a).getLsbD _ = a.getLsbD _
  have hkept := ht.kept
  rw [getLsbD_removeIntlvBits hr hnz hdis, gather_of_le (masksLsb_ascending hnz hdis)
    (fun p hp => lt_succ_of_le (ht.le p hp)) (by rw [masksLsb_length]; omega), masksLsb_length,
    show j + kept + r.masks.length = j + (top + 1) by omega]

include hr hnz hdis in
/-- An aligned address loses only zeros. -/
theorem removeIntlvBits_aligned {top kept : Nat} (ht : r.Top top kept)
    (halign : 2 ^ (top + 1) ∣ x.toNat) :
    (r.removeIntlvBits x).toNat = x.toNat / 2 ^ r.masks.length := by
  obtain ⟨q, hq⟩ := halign
  have hzero : ∀ j, j ≤ top → x.toNat.testBit j = false := by
    intro j hj
    rw [hq, testBit_two_pow_mul]
    simp
    omega
  apply eq_of_testBit_eq
  intro j
  rw [testBit_div_two_pow]
  change (r.removeIntlvBits x).getLsbD _ = _
  rw [getLsbD_removeIntlvBits hr hnz hdis]
  change x.toNat.testBit _ = _
  have hle : gather r.masksLsb j ≤ j + r.masksLsb.length := gather_le
  by_cases hlow : j + r.masks.length ≤ top
  · rw [masksLsb_length] at hle
    rw [hzero _ (by omega), hzero _ hlow]
  · rw [gather_of_le (masksLsb_ascending hnz hdis) (fun p hp => lt_succ_of_le (ht.le p hp))
      (by rw [masksLsb_length]; omega), masksLsb_length]

include hr hnz hdis in
/-- Every number has an address with a given selector. -/
theorem exists_address (hb : ∀ j, 64 - r.masks.length ≤ j → b.getLsbD j = false) :
    ∃ a, r.removeIntlvBits a = b ∧ r.sel a = r.intlvMatch.toNat := by
  have hps := masksLsb_ascending hnz hdis
  obtain ⟨a, hkept, hpar⟩ :=
    exists_parities hnz hdis (addLoop r.masksLsb b) r.intlvMatch.toNat.testBit
  refine ⟨a, ?_, (sel_eq_iff hr).mpr hpar⟩
  apply eq_of_getLsbD_eq
  intro j _
  rw [getLsbD_removeIntlvBits hr hnz hdis]
  by_cases hlt : gather r.masksLsb j < 64
  · have hnot := gather_notMem (j := j) hps
    rw [hkept _ hlt fun m hm heq => hnot (mem_masksLsb.mpr ⟨m, hm, heq⟩),
      getLsbD_addLoop hps (masksLsb_lt hnz) hlt hnot, scatter_gather]
  · have hle : gather r.masksLsb j ≤ j + r.masksLsb.length := gather_le
    rw [masksLsb_length] at hle
    rw [getLsbD_of_ge _ _ (by omega), hb j (by omega)]

include hr hnz hdis in
/-- Removing the bits keeps the order towards an aligned address. -/
theorem removeIntlvBits_le_iff {top kept : Nat} (ht : r.Top top kept)
    (halign : 2 ^ (top + 1) ∣ x.toNat) : r.removeIntlvBits x ≤ r.removeIntlvBits a ↔ x ≤ a := by
  have hx := removeIntlvBits_aligned hr hnz hdis ht halign
  obtain ⟨q, hq⟩ := halign
  have hpow : 2 ^ (top + 1) = 2 ^ r.masks.length * 2 ^ kept := by
    rw [← Nat.pow_add, add_comm r.masks.length, ht.kept]
  rw [hq, hpow, Nat.mul_assoc, Nat.mul_div_cancel_left _ (Nat.two_pow_pos _)] at hx
  rw [le_def, le_def, hx, hq, mul_comm, mul_comm (2 ^ (top + 1)),
    ← Nat.le_div_iff_mul_le (Nat.two_pow_pos _), ← Nat.le_div_iff_mul_le (Nat.two_pow_pos _),
    removeIntlvBits_div hr hnz hdis ht]

include hr hnz hdis in
theorem size_eq {top kept : Nat} (ht : r.Top top kept) (hle : r.start ≤ r.endAddr)
    (hstart : 2 ^ (top + 1) ∣ r.start.toNat) (hend : 2 ^ (top + 1) ∣ r.endAddr.toNat) :
    r.size.toNat = (r.removeIntlvBits r.endAddr).toNat - (r.removeIntlvBits r.start).toNat := by
  have hdvd : 2 ^ r.masks.length ∣ 2 ^ (top + 1) := by
    rw [← ht.kept]
    exact Nat.pow_dvd_pow 2 (Nat.le_add_left _ _)
  rw [size, toNat_ushiftRight, shiftRight_eq_div_pow, toNat_sub_of_le hle,
    removeIntlvBits_aligned hr hnz hdis ht hstart, removeIntlvBits_aligned hr hnz hdis ht hend]
  obtain ⟨s, hs⟩ := hdvd.trans hstart
  obtain ⟨e, he⟩ := hdvd.trans hend
  have hpos := Nat.two_pow_pos r.masks.length
  rw [hs, he, ← Nat.mul_sub, Nat.mul_div_cancel_left _ hpos, Nat.mul_div_cancel_left _ hpos,
    Nat.mul_div_cancel_left _ hpos]

end Numbers

theorem contains_iff : r.contains a = true ↔
    (r.start ≤ a ∧ a < r.endAddr) ∧ r.sel a = r.intlvMatch.toNat := by
  rw [contains, and_eq_true, decide_eq_true_iff, beq_iff_eq]

theorem numbered_plain (hr : r.masks = []) (hmatch : r.intlvMatch = 0) (hle : r.start ≤ r.endAddr) :
    r.Numbered := by
  have hcontains : ∀ a, r.contains a = true ↔ r.start ≤ a ∧ a < r.endAddr := by
    intro a
    rw [contains_iff, sel, hr, hmatch]
    exact and_iff_left rfl
  have hoffset : ∀ a, r.contains a = true → r.getOffset a = a - r.start := by
    intro a ha
    rw [getOffset, if_pos ((hcontains a).mp ha), interleaved, hr]
    rfl
  have hsize : r.size = r.endAddr - r.start := by
    rw [size, hr]
    exact ushiftRight_zero _
  refine ⟨fun a ha => ?_, fun a b ha hb hab => ?_, fun o ho => ?_⟩
  · rw [hoffset a ha]
    obtain ⟨hlow, hhigh⟩ := (hcontains a).mp ha
    bv_omega
  · rw [hoffset a ha, hoffset b hb]
    obtain ⟨hlow, hhigh⟩ := (hcontains a).mp ha
    bv_omega
  · have hmem : r.contains (r.start + o) = true := by
      rw [hcontains]
      constructor <;> bv_omega
    refine ⟨r.start + o, hmem, ?_⟩
    rw [hoffset _ hmem]
    bv_omega

section Interleaved

variable (hr : r.masks ≠ []) (hnz : ∀ m ∈ r.masks, m ≠ 0)
  (hdis : r.masks.Pairwise fun m n => m &&& n = 0) (hle : r.start ≤ r.endAddr)
  (halign : ∀ m ∈ r.masks,
    2 ^ (ctz64 m + 1) ∣ r.start.toNat ∧ 2 ^ (ctz64 m + 1) ∣ r.endAddr.toNat)

include hr hnz hdis hle halign in
theorem numbered_interleaved : r.Numbered := by
  obtain ⟨top, kept, ht⟩ := exists_top hr hnz hdis
  obtain ⟨m, hm, rfl⟩ := mem_masksLsb.mp ht.mem
  obtain ⟨hstart, hend⟩ := halign m hm
  have hbounds : ∀ a, r.start ≤ a ∧ a < r.endAddr ↔
      r.removeIntlvBits r.start ≤ r.removeIntlvBits a ∧
        r.removeIntlvBits a < r.removeIntlvBits r.endAddr := by
    intro a
    rw [← BitVec.not_le, ← BitVec.not_le, removeIntlvBits_le_iff hr hnz hdis ht hstart,
      removeIntlvBits_le_iff hr hnz hdis ht hend]
  have hoffset : ∀ a, r.contains a = true →
      r.getOffset a = r.removeIntlvBits a - r.removeIntlvBits r.start := by
    intro a ha
    rw [getOffset, if_pos (contains_iff.mp ha).1, if_pos (interleaved_of_ne_nil hr)]
  have hsize := size_eq hr hnz hdis ht hle hstart hend
  have hlast : (r.removeIntlvBits r.endAddr).toNat < 2 ^ (64 - r.masks.length) := by
    have hcount := ht.kept
    have hlow := ctz64_lt (hnz m hm)
    rw [removeIntlvBits_aligned hr hnz hdis ht hend, Nat.div_lt_iff_lt_mul (Nat.two_pow_pos _),
      ← Nat.pow_add, Nat.sub_add_cancel (by omega)]
    exact r.endAddr.isLt
  refine ⟨fun a ha => ?_, fun a b ha hb hab => ?_, fun o ho => ?_⟩
  · obtain ⟨hfirst, hbefore⟩ := (hbounds a).mp (contains_iff.mp ha).1
    rw [hoffset a ha, lt_def, hsize]
    bv_omega
  · obtain ⟨hfirst, hbefore⟩ := (hbounds a).mp (contains_iff.mp ha).1
    have hlt := removeIntlvBits_lt hr hnz hdis
      ((contains_iff.mp ha).2.trans (contains_iff.mp hb).2.symm) hab
    rw [hoffset a ha, hoffset b hb]
    bv_omega
  · rw [lt_def, hsize] at ho
    -- the address is found from the number it must have
    obtain ⟨a, hremove, hsel⟩ := exists_address (b := r.removeIntlvBits r.start + o) hr hnz hdis (by
      intro j hj
      apply testBit_lt_two_pow
      refine lt_of_lt_of_le ?_ (Nat.pow_le_pow_right Nat.two_pos hj)
      bv_omega)
    have hmem : r.contains a = true := by
      rw [contains_iff, hbounds a, hremove]
      refine ⟨⟨?_, ?_⟩, hsel⟩ <;> bv_omega
    refine ⟨a, hmem, ?_⟩
    rw [hoffset a hmem, hremove]
    bv_omega

end Interleaved

theorem stripe_numbered {start endAddr : BitVec 64} {masks : List (BitVec 64)}
    (hnz : ∀ m ∈ masks, m ≠ 0) (hdis : masks.Pairwise fun m n => m &&& n = 0)
    (halign : ∀ m ∈ masks, 2 ^ (ctz64 m + 1) ∣ start.toNat ∧ 2 ^ (ctz64 m + 1) ∣ endAddr.toNat)
    (hle : start ≤ endAddr) (k : Fin (2 ^ masks.length)) :
    (stripe start endAddr masks k).Numbered := by
  by_cases hr : masks = []
  · subst hr
    have hzero : (k : Nat) = 0 := lt_one_iff.mp k.isLt
    refine numbered_plain rfl ?_ hle
    change BitVec.ofNat 8 k = 0
    rw [hzero]
    rfl
  · exact numbered_interleaved (r := stripe start endAddr masks k) hr hnz hdis hle halign

/-- With at most eight masks the stripes of a valid range partition it, and each is numbered by
its offsets. -/
theorem stripes_partition (start endAddr : BitVec 64) (masks : List (BitVec 64))
    (hnz : ∀ m ∈ masks, m ≠ 0) (hdis : masks.Pairwise fun m n => m &&& n = 0)
    (halign : ∀ m ∈ masks, 2 ^ (ctz64 m + 1) ∣ start.toNat ∧ 2 ^ (ctz64 m + 1) ∣ endAddr.toNat)
    (hfew : masks.length ≤ 8) (hle : start ≤ endAddr) : Partitions start endAddr masks := by
  have hmatch : ∀ k : Fin (2 ^ masks.length), (BitVec.ofNat 8 k).toNat = k := by
    intro k
    rw [toNat_ofNat]
    exact mod_eq_of_lt (lt_of_lt_of_le k.isLt (Nat.pow_le_pow_right Nat.two_pos hfew))
  refine ⟨fun a hlow hhigh => ?_, stripe_numbered hnz hdis halign hle⟩
  have hin : ∀ k, (stripe start endAddr masks k).contains a = true ↔ selFrom a 0 masks 0 = k := by
    intro k
    rw [contains_iff, ← hmatch k]
    exact and_iff_right ⟨hlow, hhigh⟩
  exact ⟨⟨selFrom a 0 masks 0, sel_lt ⟨start, endAddr, masks, 0, fun _ => Nat.two_pow_pos _⟩ a⟩,
    (hin _).mpr rfl, fun k' hk => Fin.ext ((hin k').mp hk).symm⟩

theorem stripes_partition_hashed : Partitions 0 0x1000 [0x140, 0x280] :=
  stripes_partition 0 0x1000 _ (by simp) (by simp) (by simp; decide +kernel) (by decide) (by decide)

theorem contains_of_large_sel (start endAddr : BitVec 64) (masks : List (BitVec 64))
    (a : BitVec 64) (k : Fin (2 ^ masks.length)) (h : 256 ≤ selFrom a 0 masks 0) :
    (stripe start endAddr masks k).contains a = false := by
  rw [eq_false_iff]
  intro hmem
  have hsel : selFrom a 0 masks 0 = _ := (contains_iff.mp hmem).2
  omega

def nineMasks : List (BitVec 64) := [1, 2, 4, 8, 16, 32, 64, 128, 256]

/-- With nine masks the match values do not reach the upper half of the selectors. A range that
ends before its start has no address, but a size. -/
theorem ninth_mask_uncovered :
    (∀ m ∈ nineMasks, m ≠ 0) ∧ (nineMasks.Pairwise fun m n => m &&& n = 0) ∧
      (∀ m ∈ nineMasks,
        2 ^ (ctz64 m + 1) ∣ (0#64).toNat ∧ 2 ^ (ctz64 m + 1) ∣ (512#64).toNat) ∧
      (0#64 ≤ 256 ∧ 256 < 512#64) ∧ (∀ k, (stripe 0 512 nineMasks k).contains 256 = false) ∧
      ¬Partitions 2 0 [] := by
  have hsel : 256 ≤ selFrom 256 0 nineMasks 0 := by decide +kernel
  have halign : ∀ m ∈ nineMasks,
      2 ^ (ctz64 m + 1) ∣ (0#64).toNat ∧ 2 ^ (ctz64 m + 1) ∣ (512#64).toNat := by
    simp only [nineMasks, forall_mem_cons, not_mem_nil, false_implies, implies_true]
    decide +kernel
  refine ⟨by simp [nineMasks], by decide +kernel, halign, by decide,
    fun k => contains_of_large_sel 0 512 nineMasks 256 k hsel, fun h => ?_⟩
  obtain ⟨a, ha, _⟩ := (h.numbered 0).onto 0 (by decide)
  obtain ⟨⟨_, hhigh⟩, _⟩ := contains_iff.mp ha
  exact BitVec.not_lt_zero hhigh

end Gem5.Base.AddrRange
