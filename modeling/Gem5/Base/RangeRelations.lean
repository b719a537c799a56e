import Gem5.Base.Stripes

/-!
# Relations between ranges

`intersects` and `isSubset` against the sets of contained addresses. Of an interleaved range of
size one only the start is looked at, and a range is held to be inside an interleaved one only if
it is no longer than the lowest mask bit allows.
-/

namespace Gem5.Base.AddrRange

open List

open BitVec hiding not_or

def NonEmpty (r : AddrRange) : Prop := ∃ a, r.contains a = true

def Meet (s r : AddrRange) : Prop := ∃ a, s.contains a = true ∧ r.contains a = true

def Within (s r : AddrRange) : Prop := ∀ a, s.contains a = true → r.contains a = true

/-- `isSubset` panics or gives the right answer. -/
def SubsetRight (s r : AddrRange) : Prop :=
  (∃ message, s.isSubset r = .error (.panic message)) ∨
    ∃ b, s.isSubset r = .ok b ∧ (b = true ↔ s.Within r)

structure Means (s r : AddrRange) : Prop where
  intersects : ∀ b, s.intersects r = .ok b → (b = true ↔ s.Meet r)
  symmetric : ∀ b b', s.intersects r = .ok b → r.intersects s = .ok b' → b = b'
  isSubset : s.SubsetRight r

def StartDecides (s r : AddrRange) : Prop :=
  r.interleaved = true → r.size = 1 → (s.contains r.start = true ↔ s.Meet r)

def OnlyStart (r : AddrRange) : Prop :=
  r.interleaved = true → r.size = 1 → ∀ a, r.contains a = true ↔ a = r.start

/-- `t` is the lowest bit of all masks. -/
def Lowest (r : AddrRange) (t : Nat) : Prop :=
  (∃ m ∈ r.masks, m.getLsbD t = true) ∧ ∀ m ∈ r.masks, ∀ i < t, m.getLsbD i = false

/-- A plain range next to an interleaved one: the masks have a bit in an `int`, and a range inside
is no longer than the lowest of them. -/
def Segmented (s r : AddrRange) : Prop := s.interleaved = false → r.interleaved = true →
  (r.contains s.start = true → r.contains (s.endAddr - 1) = true →
    ∃ m ∈ r.masks, ∃ i < 32, m.getLsbD i = true) ∧
  (s.Within r → ∀ t, r.Lowest t → s.endAddr.toNat - s.start.toNat ≤ 2 ^ t)

variable {s r : AddrRange} {a b : BitVec 64}

theorem Meet.symm (h : s.Meet r) : r.Meet s := by
  obtain ⟨a, hs, hr⟩ := h
  exact ⟨a, hr, hs⟩

theorem meet_comm : s.Meet r ↔ r.Meet s := ⟨Meet.symm, Meet.symm⟩

theorem masks_of_plain (h : r.interleaved = false) : r.masks = [] := by
  unfold interleaved at h
  cases hm : r.masks with
  | nil => rfl
  | cons m ms =>
    rw [hm] at h
    cases h

theorem NonEmpty.contains_plain (h : r.NonEmpty) (hplain : r.interleaved = false) (a : BitVec 64) :
    r.contains a = true ↔ r.start ≤ a ∧ a < r.endAddr := by
  have hsel : ∀ a, r.sel a = 0 := by
    intro a
    rw [sel, masks_of_plain hplain]
    rfl
  obtain ⟨x, hx⟩ := h
  have hmatch := (contains_iff.mp hx).2
  rw [hsel] at hmatch
  rw [contains_iff, hsel, ← hmatch]
  exact and_iff_left rfl

theorem NonEmpty.start_lt (h : r.NonEmpty) : r.start < r.endAddr := by
  obtain ⟨a, ha⟩ := h
  obtain ⟨⟨hlow, hhigh⟩, _⟩ := contains_iff.mp ha
  bv_omega

section Intersects

theorem not_meet_of_apart (h : r.endAddr ≤ s.start ∨ s.endAddr ≤ r.start) : ¬s.Meet r := by
  rintro ⟨a, hs, hr⟩
  obtain ⟨⟨hlow, hhigh⟩, _⟩ := contains_iff.mp hs
  obtain ⟨⟨hlow', hhigh'⟩, _⟩ := contains_iff.mp hr
  rcases h with h | h <;> bv_omega

theorem meet_of_plain (hs : s.NonEmpty) (hr : r.NonEmpty)
    (h : ¬(r.endAddr ≤ s.start ∨ s.endAddr ≤ r.start)) (hsp : s.interleaved = false)
    (hrp : r.interleaved = false) : s.Meet r := by
  have hslt := hs.start_lt
  have hrlt := hr.start_lt
  rw [not_or] at h
  by_cases hle : s.start ≤ r.start
  · refine ⟨r.start, (hs.contains_plain hsp _).mpr ⟨hle, ?_⟩,
      (hr.contains_plain hrp _).mpr ⟨?_, hrlt⟩⟩ <;>
      bv_omega
  · refine ⟨s.start, (hs.contains_plain hsp _).mpr ⟨?_, hslt⟩,
      (hr.contains_plain hrp _).mpr ⟨?_, ?_⟩⟩ <;>
      bv_omega

theorem contains_start_iff_of_plain (hr : r.NonEmpty) (hrp : r.interleaved = false)
    (hone : r.size = 1) :
    s.contains r.start = true ↔ s.Meet r := by
  have hlt := hr.start_lt
  have hsize : r.endAddr - r.start = 1 := by
    rw [← hone, size, masks_of_plain hrp]
    exact (ushiftRight_zero _).symm
  constructor
  · intro h
    exact ⟨r.start, h, (hr.contains_plain hrp _).mpr ⟨BitVec.le_refl _, hlt⟩⟩
  · rintro ⟨a, hs, ha⟩
    obtain ⟨hlow, hhigh⟩ := (hr.contains_plain hrp _).mp ha
    have heq : a = r.start := by bv_omega
    rwa [← heq]

theorem meet_of_merges (hr : r.NonEmpty) (h : s.mergesWith r = true) :
    (s.intlvMatch == r.intlvMatch) = true ↔ s.Meet r := by
  simp only [mergesWith, Bool.and_eq_true, beq_iff_eq] at h
  obtain ⟨⟨hstart, hend⟩, hmasks⟩ := h
  have hsel : ∀ a, s.sel a = r.sel a := fun a => by rw [sel, sel, hmasks]
  rw [beq_iff_eq]
  constructor
  · intro heq
    obtain ⟨a, ha⟩ := hr
    refine ⟨a, ?_, ha⟩
    rw [contains_iff] at ha ⊢
    rwa [hsel, heq, ← hstart, ← hend]
  · rintro ⟨a, hs, ha⟩
    have heq := (contains_iff.mp hs).2.symm.trans ((hsel a).trans (contains_iff.mp ha).2)
    exact eq_of_toNat_eq heq

theorem startDecides_of_apart (hr : r.NonEmpty)
    (h : r.endAddr ≤ s.start ∨ s.endAddr ≤ r.start) : s.StartDecides r := by
  refine fun _ _ => iff_of_false (fun hstart => ?_) (not_meet_of_apart h)
  obtain ⟨⟨hlow, hhigh⟩, _⟩ := contains_iff.mp hstart
  have hlt := hr.start_lt
  rcases h with h | h <;> bv_omega

theorem OnlyStart.startDecides (h : r.OnlyStart) (s : AddrRange) : s.StartDecides r := by
  intro hi hone
  unfold Meet
  simp only [h hi hone, exists_eq_right]

theorem intersects_right_iff (hs : s.NonEmpty) (hr : r.NonEmpty) :
    (∀ b, s.intersects r = .ok b → (b = true ↔ s.Meet r)) ↔ s.StartDecides r := by
  by_cases hapart : r.endAddr ≤ s.start ∨ s.endAddr ≤ r.start
  · refine ⟨fun _ => startDecides_of_apart hr hapart, fun _ b hb => ?_⟩
    rw [intersects, if_pos hapart] at hb
    cases hb
    exact iff_of_false Bool.false_ne_true (not_meet_of_apart hapart)
  by_cases hplain : s.interleaved = false ∧ r.interleaved = false
  · have hmeet := meet_of_plain hs hr hapart hplain.1 hplain.2
    have hanswer : s.intersects r = .ok true := by
      rw [intersects, if_neg hapart, if_pos hplain, sim_pure]
    refine ⟨fun _ hi _ => ?_, fun _ b hb => ?_⟩
    · rw [hplain.2] at hi
      cases hi
    · rw [hanswer] at hb
      cases hb
      exact iff_of_true rfl hmeet
  by_cases hone : r.size = 1
  · have hanswer : s.intersects r = .ok (s.contains r.start) := by
      rw [intersects, if_neg hapart, if_neg hplain, if_pos hone, sim_pure]
    refine ⟨fun h _ _ => h _ hanswer, fun h b hb => ?_⟩
    rw [hanswer] at hb
    cases hb
    cases hi : r.interleaved with
    | true => exact h hi hone
    | false => exact contains_start_iff_of_plain hr hi hone
  refine ⟨fun _ _ h => absurd h hone, fun _ b hb => ?_⟩
  rw [intersects, if_neg hapart, if_neg hplain, if_neg hone] at hb
  split at hb
  · rename_i hmerge
    cases hb
    exact meet_of_merges hr hmerge
  · cases hb

theorem intersects_of_size_one (h : r.size = 1) : ∃ b, s.intersects r = .ok b := by
  unfold intersects
  rw [if_pos h]
  split
  · exact ⟨_, rfl⟩
  · split <;> exact ⟨_, rfl⟩

theorem startDecides_of_intersects {b : Bool} (hs : s.NonEmpty)
    (h : r.size = 1 → r.StartDecides s) (hb : s.intersects r = .ok b) : r.StartDecides s := by
  intro hi hone
  unfold intersects at hb
  split at hb
  · rename_i hapart
    exact startDecides_of_apart hs hapart.symm hi hone
  · split at hb
    · rename_i hplain
      exact absurd (hplain.1.symm.trans hi) Bool.false_ne_true
    · split at hb
      · rename_i hr
        exact h hr hi hone
      · split at hb
        · rename_i hmerge
          simp only [mergesWith, Bool.and_eq_true, beq_iff_eq] at hmerge
          refine h ?_ hi hone
          rw [size, hmerge.1.1, hmerge.1.2, hmerge.2]
          exact hone
        · cases hb

theorem symmetric_iff (hs : s.NonEmpty) (hr : r.NonEmpty) (h : s.StartDecides r) :
    (∀ b b', s.intersects r = .ok b → r.intersects s = .ok b' → b = b') ↔
      (r.size = 1 → r.StartDecides s) := by
  have hright := (intersects_right_iff hs hr).mpr h
  constructor
  · intro hsym hone
    obtain ⟨b, hb⟩ := intersects_of_size_one hone
    refine (intersects_right_iff hr hs).mp fun b' hb' => ?_
    rw [← hsym b b' hb hb', hright b hb, meet_comm]
  · intro hback b b' hb hb'
    have hstart := startDecides_of_intersects hs hback hb
    have hother := (intersects_right_iff hr hs).mpr hstart b' hb'
    rw [Bool.eq_iff_iff, hright b hb, hother, meet_comm]

end Intersects

section Subset

theorem selFrom_congr {ms : List (BitVec 64)} (h : ∀ m ∈ ms, a &&& m = b &&& m) :
    ∀ i sel, selFrom a i ms sel = selFrom b i ms sel := by
  induction ms with
  | nil =>
    intro i sel
    rfl
  | cons m ms ih =>
    intro i sel
    rw [forall_mem_cons] at h
    rw [selFrom, selFrom, h.1]
    exact ih h.2 _ _

theorem sel_eq_of_div {t : Nat} (ht : r.Lowest t) (h : a.toNat / 2 ^ t = b.toNat / 2 ^ t) :
    r.sel a = r.sel b := by
  refine selFrom_congr (fun m hm => ?_) 0 0
  apply eq_of_getLsbD_eq
  intro j _
  rw [getLsbD_and, getLsbD_and]
  by_cases hj : j < t
  · rw [ht.2 m hm j hj, Bool.and_false, Bool.and_false]
  · have hbit := congrArg (fun x => x.testBit (j - t)) h
    simp only [Nat.testBit_div_two_pow, Nat.sub_add_cancel (Nat.not_lt.mp hj)] at hbit
    change (a.toNat.testBit j && _) = (b.toNat.testBit j && _)
    rw [hbit]

theorem within_of_ends {t : Nat} (ht : r.Lowest t) (hs : s.NonEmpty) (hsp : s.interleaved = false)
    (hfirst : r.contains s.start = true) (hlast : r.contains (s.endAddr - 1) = true)
    (hsize : s.endAddr.toNat - s.start.toNat ≤ 2 ^ t) : s.Within r := by
  intro a ha
  obtain ⟨hlow, hhigh⟩ := (hs.contains_plain hsp a).mp ha
  obtain ⟨⟨hlow₁, hhigh₁⟩, hsel₁⟩ := contains_iff.mp hfirst
  obtain ⟨⟨hlow₂, hhigh₂⟩, hsel₂⟩ := contains_iff.mp hlast
  rw [contains_iff]
  refine ⟨⟨by bv_omega, by bv_omega⟩, ?_⟩
  have hend : (s.endAddr - 1).toNat = s.endAddr.toNat - 1 := by bv_omega
  have hlo : s.start.toNat ≤ a.toNat := hlow
  have hhi : a.toNat ≤ (s.endAddr - 1).toNat := by bv_omega
  have hstep : (s.endAddr - 1).toNat ≤ s.start.toNat + 2 ^ t := by omega
  have hdiv₁ := Nat.div_le_div_right (c := 2 ^ t) hlo
  have hdiv₂ := Nat.div_le_div_right (c := 2 ^ t) hhi
  have hdiv₃ := Nat.div_le_div_right (c := 2 ^ t) hstep
  rw [Nat.add_div_right _ (Nat.two_pow_pos t)] at hdiv₃
  -- the range touches at most two segments, those of its ends
  rcases Nat.lt_or_ge (s.start.toNat / 2 ^ t) (a.toNat / 2 ^ t) with hnext | hsame
  · rw [sel_eq_of_div ht (by omega : a.toNat / 2 ^ t = (s.endAddr - 1).toNat / 2 ^ t)]
    exact hsel₂
  · rw [sel_eq_of_div ht (by omega : a.toNat / 2 ^ t = s.start.toNat / 2 ^ t)]
    exact hsel₁

theorem getLsbD_combinedMask {i : Nat} (hi : i < 32) : ∀ (ms : List (BitVec 64)) (c : BitVec 32),
    (ms.foldl (fun c m => (c.signExtend 64 ||| m).setWidth 32) c).getLsbD i =
      (c.getLsbD i || ms.any fun m => m.getLsbD i) := by
  intro ms
  induction ms with
  | nil =>
    intro c
    simp
  | cons m ms ih =>
    intro c
    rw [foldl_cons, ih, any_cons, getLsbD_setWidth, getLsbD_or,
      getLsbD_signExtend, decide_eq_true hi, decide_eq_true (by omega : i < 64), if_pos hi,
      Bool.true_and, Bool.true_and, Bool.or_assoc]

theorem granularity_of_bit (hr : r.interleaved = true)
    (h : ∃ m ∈ r.masks, ∃ i < 32, m.getLsbD i = true) :
    ∃ t < 32, r.Lowest t ∧ r.granularity = some (1#64 <<< t) := by
  obtain ⟨c, hc⟩ : ∃ c, c = r.masks.foldl (fun c m => (c.signExtend 64 ||| m).setWidth 32) 0#32 :=
    ⟨_, rfl⟩
  have hbits : ∀ i < 32, (c.signExtend 64).getLsbD i = r.masks.any fun m => m.getLsbD i := by
    intro i hi
    rw [getLsbD_signExtend, if_pos hi, decide_eq_true (by omega : i < 64), Bool.true_and, hc,
      getLsbD_combinedMask hi, getLsbD_zero, Bool.false_or]
  obtain ⟨m, hm, i, hi, hbit⟩ := h
  have hset : (c.signExtend 64).getLsbD i = true := by
    rw [hbits i hi]
    exact any_eq_true.mpr ⟨m, hm, hbit⟩
  have hne : c.signExtend 64 ≠ 0 := by
    intro hzero
    rw [hzero] at hset
    simp at hset
  have hle : ctz64 (c.signExtend 64) ≤ i := by
    by_contra hlt
    rw [getLsbD_of_lt_ctz64 (by omega)] at hset
    cases hset
  refine ⟨ctz64 (c.signExtend 64), by omega, ⟨?_, fun m hm j hj => ?_⟩, ?_⟩
  · have htop := getLsbD_ctz64 hne
    rw [hbits _ (by omega)] at htop
    exact any_eq_true.mp htop
  · have hlow := getLsbD_of_lt_ctz64 hj
    rw [hbits j (by omega), any_eq_false] at hlow
    exact Bool.eq_false_iff.mpr (hlow m hm)
  · rw [granularity, if_pos hr]
    simp only [← hc]
    rw [if_pos (by omega)]

theorem granularity_of_no_bit (hr : r.interleaved = true)
    (h : ¬∃ m ∈ r.masks, ∃ i < 32, m.getLsbD i = true) : r.granularity = none := by
  have hzero : r.masks.foldl (fun c m => (c.signExtend 64 ||| m).setWidth 32) 0#32 = 0#32 := by
    apply eq_of_getLsbD_eq
    intro i hi
    rw [getLsbD_combinedMask hi, getLsbD_zero, Bool.false_or, any_eq_false]
    exact fun m hm hbit => h ⟨m, hm, i, hi, hbit⟩
  rw [granularity, if_pos hr]
  simp only [hzero]
  decide +kernel

theorem subsetRight_plain (hs : s.NonEmpty) (hr : r.NonEmpty) (hsp : s.interleaved = false)
    (hrp : r.interleaved = false) : s.SubsetRight r := by
  refine .inr ⟨decide (r.start ≤ s.start ∧ s.endAddr ≤ r.endAddr), ?_, ?_⟩
  · rw [isSubset, if_neg (by rw [hsp]; decide), if_neg (by rw [hrp]; decide), sim_pure]
  rw [decide_eq_true_iff]
  have hlt := hs.start_lt
  constructor
  · rintro ⟨hstart, hend⟩ a ha
    obtain ⟨hlow, hhigh⟩ := (hs.contains_plain hsp a).mp ha
    exact (hr.contains_plain hrp a).mpr ⟨by bv_omega, by bv_omega⟩
  · intro h
    have hfirst := h s.start ((hs.contains_plain hsp _).mpr ⟨BitVec.le_refl _, hlt⟩)
    have hlast := h (s.endAddr - 1) ((hs.contains_plain hsp _).mpr ⟨by bv_omega, by bv_omega⟩)
    rw [hr.contains_plain hrp] at hfirst hlast
    exact ⟨hfirst.1, by bv_omega⟩

theorem Within.ends (h : s.Within r) (hs : s.NonEmpty) (hsp : s.interleaved = false) :
    r.contains s.start = true ∧ r.contains (s.endAddr - 1) = true := by
  have hlt := hs.start_lt
  exact ⟨h _ ((hs.contains_plain hsp _).mpr ⟨BitVec.le_refl _, hlt⟩),
    h _ ((hs.contains_plain hsp _).mpr ⟨by bv_omega, by bv_omega⟩)⟩

theorem size_le_iff {t : Nat} (ht : t < 32) (hs : s.NonEmpty) (hsp : s.interleaved = false) :
    s.size ≤ 1#64 <<< t ↔ s.endAddr.toNat - s.start.toNat ≤ 2 ^ t := by
  have hlt := hs.start_lt
  have hpow : 2 ^ t < 2 ^ 64 := Nat.pow_lt_pow_right (by decide) (by omega)
  have hsize : s.size = s.endAddr - s.start := by
    rw [size, masks_of_plain hsp]
    exact ushiftRight_zero _
  rw [le_def, hsize, toNat_sub_of_le (BitVec.le_of_lt hlt), toNat_shiftLeft,
    toNat_ofNat, Nat.shiftLeft_eq, Nat.mod_eq_of_lt (by omega : 1 < 2 ^ 64), Nat.one_mul,
    Nat.mod_eq_of_lt hpow]

theorem Lowest.unique {t u : Nat} (ht : r.Lowest t) (hu : r.Lowest u) : t = u := by
  obtain ⟨m, hm, hbit⟩ := ht.1
  obtain ⟨n, hn, hbit'⟩ := hu.1
  by_contra hne
  rcases Nat.lt_or_gt_of_ne hne with hlt | hlt
  · rw [hu.2 m hm t hlt] at hbit
    cases hbit
  · rw [ht.2 n hn u hlt] at hbit'
    cases hbit'

theorem subsetRight_iff (hs : s.NonEmpty) (hr : r.NonEmpty) : s.SubsetRight r ↔ s.Segmented r := by
  cases hsi : s.interleaved with
  | true =>
    refine ⟨fun _ hsp => absurd (hsp.symm.trans hsi) Bool.false_ne_true, fun _ => .inl ?_⟩
    exact ⟨"Cannot test subset of interleaved range", by rw [isSubset, if_pos hsi]⟩
  | false =>
    cases hri : r.interleaved with
    | false =>
      exact ⟨fun _ _ hi => absurd (hri.symm.trans hi) Bool.false_ne_true,
        fun _ => subsetRight_plain hs hr hsi hri⟩
    | true =>
      have hanswer : s.isSubset r = s.fitsStripe r := by
        rw [isSubset, if_neg (by rw [hsi]; decide), if_pos hri]
      by_cases hends : r.contains s.start = true ∧ r.contains (s.endAddr - 1) = true
      · by_cases hbit : ∃ m ∈ r.masks, ∃ i < 32, m.getLsbD i = true
        · obtain ⟨t, ht, hlow, hgran⟩ := granularity_of_bit hri hbit
          have hok : s.isSubset r = .ok (decide (s.size ≤ 1#64 <<< t)) := by
            rw [hanswer, fitsStripe, if_pos (by rw [hends.1, hends.2]; rfl), hgran]
            rfl
          have hshort := size_le_iff ht hs hsi
          constructor
          · rintro (⟨_, hpanic⟩ | ⟨b, hb, hiff⟩)
            · rw [hok] at hpanic
              cases hpanic
            · rw [hok] at hb
              cases hb
              refine fun _ _ => ⟨fun _ _ => hbit, fun hin u hu => ?_⟩
              rw [← hlow.unique hu, ← hshort]
              exact of_decide_eq_true (hiff.mpr hin)
          · intro hseg
            refine .inr ⟨_, hok, ?_⟩
            rw [decide_eq_true_iff, hshort]
            exact ⟨within_of_ends hlow hs hsi hends.1 hends.2,
              fun hin => (hseg hsi hri).2 hin t hlow⟩
        · have herr : s.isSubset r = .error .outOfBounds := by
            rw [hanswer, fitsStripe, if_pos (by rw [hends.1, hends.2]; rfl),
              granularity_of_no_bit hri hbit]
          constructor
          · rintro (⟨_, hpanic⟩ | ⟨b, hb, _⟩)
            · rw [herr] at hpanic
              cases hpanic
            · rw [herr] at hb
              cases hb
          · intro hseg
            exact absurd ((hseg hsi hri).1 hends.1 hends.2) hbit
      · have hnot : ¬s.Within r := fun hin => hends (hin.ends hs hsi)
        have hok : s.isSubset r = .ok false := by
          rw [hanswer, fitsStripe, if_neg (by rwa [Bool.and_eq_true]), sim_pure]
        constructor
        · exact fun _ _ _ => ⟨fun hfirst hlast => absurd ⟨hfirst, hlast⟩ hends,
            fun hin => absurd hin hnot⟩
        · exact fun _ => .inr ⟨false, hok, iff_of_false Bool.false_ne_true hnot⟩

end Subset

/-- The relations mean what they say exactly if the start of a range of size one decides, in both
directions if the second has size one, and the granularity does. -/
theorem relations_mean_iff (s r : AddrRange) (hs : s.NonEmpty) (hr : r.NonEmpty) :
    s.Means r ↔ s.StartDecides r ∧ (r.size = 1 → r.StartDecides s) ∧ s.Segmented r := by
  constructor
  · intro h
    have hstart := (intersects_right_iff hs hr).mp h.intersects
    exact ⟨hstart, (symmetric_iff hs hr hstart).mp h.symmetric,
      (subsetRight_iff hs hr).mp h.isSubset⟩
  · rintro ⟨hstart, hback, hseg⟩
    exact ⟨(intersects_right_iff hs hr).mpr hstart, (symmetric_iff hs hr hstart).mpr hback,
      (subsetRight_iff hs hr).mpr hseg⟩

theorem relations_mean_iff_segment :
    (RangeEx 0 8).Means ⟨0, 16, [8], 0, fun _ => by decide⟩ := by
  refine (relations_mean_iff (RangeEx 0 8) ⟨0, 16, [8], 0, fun _ => by decide⟩
    ⟨0, by decide +kernel⟩
    ⟨0, by decide +kernel⟩).mpr ⟨fun _ h => ?_, fun _ h => ?_, fun _ _ => ⟨fun _ _ => ?_, ?_⟩⟩
  · exact absurd h (by decide)
  · exact absurd h (by decide)
  · exact ⟨8, mem_singleton_self _, 3, by decide, by decide⟩
  · rintro _ t ⟨⟨m, hm, hbit⟩, _⟩
    rw [mem_singleton.mp hm] at hbit
    have ht : 3 ≤ t := by
      by_contra hlt
      have hcases : t = 0 ∨ t = 1 ∨ t = 2 := by omega
      rcases hcases with rfl | rfl | rfl <;> exact absurd hbit (by decide)
    exact Nat.pow_le_pow_right Nat.two_pos ht

/-- Enough on the ranges themselves: one of size one has its start only, and a plain range is no
longer than a segment of an interleaved one. -/
theorem means_of_short (hs : s.NonEmpty) (hr : r.NonEmpty) (hsone : s.OnlyStart)
    (hrone : r.OnlyStart) (hshort : s.interleaved = false → r.interleaved = true →
      ∃ t < 32, r.Lowest t ∧ s.endAddr.toNat - s.start.toNat ≤ 2 ^ t) : s.Means r := by
  have hstart := hrone.startDecides s
  refine ⟨(intersects_right_iff hs hr).mpr hstart,
    (symmetric_iff hs hr hstart).mpr fun _ => hsone.startDecides r,
    (subsetRight_iff hs hr).mpr fun hsp hri => ?_⟩
  obtain ⟨t, ht, hlow, hle⟩ := hshort hsp hri
  obtain ⟨m, hm, hbit⟩ := hlow.1
  exact ⟨fun _ _ => ⟨m, hm, t, ht, hbit⟩, fun _ u hu => hlow.unique hu ▸ hle⟩

/-- The hashed range with the addresses 1 and 2. -/
def middle : AddrRange := ⟨0, 4, [3], 1, fun _ => by decide⟩

def pair : AddrRange := ⟨0, 2, [0x100], 0, fun _ => by decide⟩

/-- A range inside a hashed one is denied, and so is a common address other than the start. -/
theorem relations_denied : (RangeEx 1 3).NonEmpty ∧ middle.NonEmpty ∧ pair.NonEmpty ∧
    ((RangeEx 1 3).isSubset middle = .ok false ∧ (RangeEx 1 3).Within middle) ∧
    (RangeEx 1 3).intersects pair = .ok false ∧ (RangeEx 1 3).Meet pair := by
  refine ⟨⟨1, by decide +kernel⟩, ⟨1, by decide +kernel⟩, ⟨0, by decide +kernel⟩,
    ⟨by decide +kernel, fun a ha => ?_⟩, by decide +kernel,
    ⟨1, by decide +kernel, by decide +kernel⟩⟩
  obtain ⟨⟨hlow, hhigh⟩, _⟩ := contains_iff.mp ha
  change 1#64 ≤ a at hlow
  change a < 3#64 at hhigh
  have hcases : a = 1 ∨ a = 2 := by bv_omega
  rcases hcases with rfl | rfl <;> decide +kernel

end Gem5.Base.AddrRange
